import SolidityStubs.Text.Span

/-! # Declarations

What a source declares: its pragmas, imports and contracts, and the members of each contract. Every
node keeps the span it was read from, so that text can be cut out of the source again.
-/
namespace SolidityStubs

inductive TypeName
  | named (literal : String)
  | mapping (key value : TypeName) (literal : String)
deriving DecidableEq, Repr

namespace TypeName

def literal : TypeName → String
  | .named literal => literal
  | .mapping _ _ literal => literal

def isMapping : TypeName → Bool
  | .named _ => false
  | .mapping _ _ _ => true

/-- The type that the getter of a variable of this type returns: of a mapping, the text of its
value type, also where that is a mapping again. -/
def getterLiteral : TypeName → String
  | .named literal => literal
  | .mapping _ value _ => value.literal

end TypeName

structure Parameter where
  typeName : TypeName
  name : Option String
  span : Span
deriving DecidableEq, Repr

/-- A word after the parameters of a function: a visibility, a mutability, the invocation of a
modifier, or the clause of return values, which goes by the name `returns`. -/
structure Modifier where
  name : String
  span : Span
deriving DecidableEq, Repr

inductive FunctionKind
  | function
  | constructor
  | fallback
  | receive
deriving DecidableEq, Repr

structure FunctionDecl where
  kind : FunctionKind
  name : Option String
  params : List Parameter
  /-- The parameter list, its parentheses included. -/
  paramsSpan : Span
  modifiers : List Modifier
  span : Span
deriving DecidableEq, Repr

structure VariableDecl where
  name : String
  typeName : TypeName
  isPublic : Bool
  isConstant : Bool
  span : Span
deriving DecidableEq, Repr

structure EnumDecl where
  name : String
  values : List String
  span : Span
deriving DecidableEq, Repr

inductive Member
  | function (decl : FunctionDecl)
  | stateVariable (decl : VariableDecl)
  | enum (decl : EnumDecl)
  | other (span : Span)
deriving DecidableEq, Repr

inductive ContractKind
  | contract
  | library
  | interface
deriving DecidableEq, Repr

structure Contract where
  kind : ContractKind
  name : String
  /-- The contracts that this one inherits from, as they are named. -/
  bases : List String
  body : List Member
  span : Span
deriving DecidableEq, Repr

structure Import where
  /-- The path between its quotes. -/
  path : String
  span : Span
deriving DecidableEq, Repr

inductive SourceItem
  | pragma (span : Span)
  | importing (decl : Import)
  | contract (decl : Contract)
  | other (span : Span)
deriving DecidableEq, Repr

structure SourceUnit where
  items : List SourceItem
deriving DecidableEq, Repr

namespace Member

def span : Member → Span
  | .function decl => decl.span
  | .stateVariable decl => decl.span
  | .enum decl => decl.span
  | .other span => span

end Member

namespace SourceItem

def span : SourceItem → Span
  | .pragma span => span
  | .importing decl => decl.span
  | .contract decl => decl.span
  | .other span => span

def contract? : SourceItem → Option Contract
  | .contract decl => some decl
  | _ => none

def import? : SourceItem → Option Import
  | .importing decl => some decl
  | _ => none

def pragma? : SourceItem → Option Span
  | .pragma span => some span
  | _ => none

end SourceItem

namespace SourceUnit

def contracts (u : SourceUnit) : List Contract := u.items.filterMap (·.contract?)

def imports (u : SourceUnit) : List Import := u.items.filterMap (·.import?)

end SourceUnit

end SolidityStubs

import SolidityStubs.Source.Declaration
import SolidityStubs.Source.Rule
import SolidityStubs.Peg.Basic
import SolidityStubs.Text.Blank

/-! # Declarations from parse trees

Each declaration is read off the node of its rule. What a node of the grammar always has is looked
up with a neutral default.
-/
namespace SolidityStubs

open Source (Rule)

abbrev Tree := Peg.Node Rule

mutual

/-- A type is a mapping if its first child is one with a key and a value. -/
def TypeName.ofTree : Tree → TypeName
  | ⟨_, start, stop, children⟩ =>
    let literal := String.ofList (Text.trimChars (start.upTo stop))
    match TypeName.keyAndValue? children with
    | some (key, value) => .mapping key value literal
    | none => .named literal

def TypeName.keyAndValue? : List Tree → Option (TypeName × TypeName)
  | [] => none
  | ⟨rule, _, _, children⟩ :: _ =>
    if rule = .mappingType then
      match TypeName.ofTrees children with
      | key :: value :: _ => some (key, value)
      | _ => none
    else
      none

def TypeName.ofTrees : List Tree → List TypeName
  | [] => []
  | t :: ts =>
    if t.rule = .typeName then TypeName.ofTree t :: TypeName.ofTrees ts else TypeName.ofTrees ts

end

namespace Parameter

def ofTree? (t : Tree) : Option Parameter :=
  (t.child? .typeName).map fun typeName =>
    ⟨TypeName.ofTree typeName, (t.child? .identifier).map (·.string), t.span⟩

def listOfTree (t : Tree) : List Parameter :=
  (t.childrenOf .parameter).filterMap ofTree?

end Parameter

def Source.dottedName (t : Tree) : String :=
  ((t.child? .userTypeName).map (·.string)).getD ""

namespace Modifier

def ofTree? (t : Tree) : Option Modifier :=
  match t.rule with
  | .returnsClause => some ⟨"returns", t.span⟩
  | .modifierInvocation => some ⟨Source.dottedName t, t.span⟩
  | _ => none

end Modifier

namespace FunctionKind

def ofHead (t : Tree) : FunctionKind :=
  if (t.child? (.keyword .constructorWord)).isSome then .constructor
  else if (t.child? (.keyword .fallbackWord)).isSome then .fallback
  else if (t.child? (.keyword .receiveWord)).isSome then .receive
  else .function

end FunctionKind

namespace FunctionDecl

def ofTree (t : Tree) : FunctionDecl where
  kind := ((t.child? .functionHead).map FunctionKind.ofHead).getD .function
  name := (t.child? .functionHead).bind fun head => (head.child? .identifier).map (·.string)
  params := ((t.child? .parameterList).map Parameter.listOfTree).getD []
  paramsSpan := ((t.child? .parameterList).map (·.span)).getD ⟨t.start.offset, t.start.offset⟩
  modifiers := t.children.filterMap Modifier.ofTree?
  span := t.span

end FunctionDecl

namespace VariableDecl

def ofTree (t : Tree) : VariableDecl where
  name := ((t.child? .identifier).map (·.string)).getD ""
  typeName := ((t.child? .typeName).map TypeName.ofTree).getD (.named "")
  isPublic := (t.childrenOf .stateVariableAttribute).any (·.string == "public")
  isConstant := (t.childrenOf .stateVariableAttribute).any (·.string == "constant")
  span := t.span

end VariableDecl

namespace EnumDecl

def ofTree (t : Tree) : EnumDecl where
  name := ((t.child? .identifier).map (·.string)).getD ""
  values := (t.childrenOf .identifier).tail.map (·.string)
  span := t.span

end EnumDecl

namespace Member

def ofTree? (t : Tree) : Option Member :=
  match t.rule with
  | .functionDefinition => some (.function (.ofTree t))
  | .stateVariableDeclaration => some (.stateVariable (.ofTree t))
  | .enumDefinition => some (.enum (.ofTree t))
  | .usingDirective | .structDefinition | .eventDefinition | .errorDefinition
  | .modifierDefinition => some (.other t.span)
  | _ => none

end Member

namespace ContractKind

/-- An abstract contract is a contract. -/
def ofText (s : String) : ContractKind :=
  if s = "library" then .library
  else if s = "interface" then .interface
  else .contract

end ContractKind

namespace Contract

def basesOfTree (t : Tree) : List String :=
  (t.childrenOf .inheritanceSpecifier).map Source.dottedName

def ofTree (t : Tree) : Contract where
  kind := ((t.child? .contractKind).map (ContractKind.ofText ·.string)).getD .contract
  name := ((t.child? .identifier).map (·.string)).getD ""
  bases := ((t.child? .inheritanceList).map basesOfTree).getD []
  body := t.children.filterMap Member.ofTree?
  span := t.span

end Contract

namespace Import

def unquote (cs : List Char) : String :=
  String.ofList cs.tail.dropLast

def ofTree (t : Tree) : Import where
  path := ((t.child? .importPath).map (unquote <| Text.trimChars ·.text)).getD ""
  span := t.span

end Import

namespace SourceItem

def ofTree? (t : Tree) : Option SourceItem :=
  match t.rule with
  | .pragmaDirective => some (.pragma t.span)
  | .importDirective => some (.importing (.ofTree t))
  | .contractDefinition => some (.contract (.ofTree t))
  | .endOfInput => none
  | _ => some (.other t.span)

end SourceItem

namespace SourceUnit

def ofTree (t : Tree) : SourceUnit := ⟨t.children.filterMap SourceItem.ofTree?⟩

end SourceUnit

end SolidityStubs

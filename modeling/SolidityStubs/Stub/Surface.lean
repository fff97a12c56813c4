import SolidityStubs.Source.Declaration

/-! # The public surface of a contract

An interface is made for the first declaration of kind `contract`. It shows the functions that can
be called from outside and the public variables; the enums are needed to write their types.
-/
namespace SolidityStubs

namespace FunctionDecl

/-- A function is public unless it is marked otherwise. -/
def isPublic (f : FunctionDecl) : Bool :=
  ! f.modifiers.any fun m => m.name == "private" || m.name == "internal"

end FunctionDecl

namespace Member

def function? : Member → Option FunctionDecl
  | .function decl => some decl
  | _ => none

def stateVariable? : Member → Option VariableDecl
  | .stateVariable decl => some decl
  | _ => none

def enum? : Member → Option EnumDecl
  | .enum decl => some decl
  | _ => none

end Member

namespace Contract

/-- Whether the interface shows a function: it is a plain function with a name, which is not the
contract's own name, and it is public. -/
def shows (c : Contract) (f : FunctionDecl) : Bool :=
  f.kind == .function && f.name.isSome && f.name != some c.name && f.isPublic

def functions (c : Contract) : List FunctionDecl :=
  (c.body.filterMap (·.function?)).filter c.shows

def publicVariables (c : Contract) : List VariableDecl :=
  (c.body.filterMap (·.stateVariable?)).filter (·.isPublic)

def enums (c : Contract) : List EnumDecl :=
  c.body.filterMap (·.enum?)

end Contract

structure Surface where
  /-- The first pragma with its semicolon, or nothing. -/
  pragma : String
  contract : Contract
  imports : List Import
deriving DecidableEq, Repr

namespace Surface

def locate? (u : SourceUnit) (source : String) : Option Surface :=
  (u.contracts.find? (·.kind == .contract)).map fun contract =>
    { pragma := ((u.items.findSome? (·.pragma?)).map (·.slice source)).getD ""
      contract
      imports := u.imports }

end Surface

end SolidityStubs

import SolidityStubs.Stub.Block
import SolidityStubs.Stub.Surface
import SolidityStubs.Text.Blank
import SolidityStubs.Text.Word

/-! # Stubs

A stub declares a function without its body. It is cut out of the source, so it keeps the way the
function was written, except that a modifier of the contract's own is left out and that the name of
an enum gives way to the type its values have outside.
-/
namespace SolidityStubs

def plainModifiers : List String :=
  ["constant", "payable", "public", "private", "internal", "returns"]

/-- The type that the values of an enum have outside its contract. -/
def enumPrimitive : String := "uint8"

def substituteEnums (enums : List String) (text : String) : String :=
  Text.replaceWords enums enumPrimitive text

namespace FunctionDecl

/-- Name and parameters. Without parameters they are written anew. -/
def head (f : FunctionDecl) (source : String) (enums : List String) : String :=
  if f.params.isEmpty then "function " ++ f.name.getD "" ++ "()"
  else substituteEnums enums (Span.slice ⟨f.span.start, f.paramsSpan.stop⟩ source)

def keptModifiers (f : FunctionDecl) (source : String) (keep enums : List String) : List String :=
  (f.modifiers.filter (keep.contains ·.name)).map fun m =>
    substituteEnums enums (Text.trim (m.span.slice source))

def stub (f : FunctionDecl) (source : String) (keep enums : List String) : String :=
  "  " ++ " ".intercalate (f.head source enums :: f.keptModifiers source keep enums) ++ ";"

end FunctionDecl

namespace VariableDecl

def stub (v : VariableDecl) (enums : List String) : String :=
  "  function " ++ v.name ++ "() public constant returns(" ++
    substituteEnums enums v.typeName.getterLiteral ++ ");"

end VariableDecl

namespace Contract

def enumNames (c : Contract) : List String := c.enums.map (·.name)

def stubBlock (c : Contract) (source : String) (inherited : List String) : StubBlock where
  inherited
  getters := c.publicVariables.map (·.stub c.enumNames)
  functions := c.functions.map (·.stub source plainModifiers c.enumNames)

end Contract

namespace Surface

def draft (s : Surface) (source : String) (inherited : List String) : Draft where
  pragma := s.pragma
  name := s.contract.name
  block := s.contract.stubBlock source inherited

end Surface

end SolidityStubs

/-! # Blocks of stubs

A block holds the stubs of one contract: those it inherits, the getters of its variables and its
functions. An interface is a block in a contract of its own.
-/
namespace SolidityStubs

structure StubBlock where
  /-- The written stubs of each base that is known. -/
  inherited : List String
  getters : List String
  functions : List String
deriving DecidableEq, Repr

namespace StubBlock

def isEmpty (b : StubBlock) : Bool :=
  b.inherited.isEmpty && b.getters.isEmpty && b.functions.isEmpty

def inheritedMarker : String := "  // inherited"

/-- The pieces of the block in order, under a marker if there are inherited ones. -/
def lines (b : StubBlock) : List String :=
  (if b.inherited.isEmpty then [] else inheritedMarker :: b.inherited) ++ b.getters ++ b.functions

def render (b : StubBlock) : String :=
  "\n".intercalate b.lines

end StubBlock

structure Draft where
  pragma : String
  /-- The contract that the interface is made for. -/
  name : String
  block : StubBlock
deriving DecidableEq, Repr

namespace Draft

def stubs (d : Draft) : String := d.block.render

def interface (d : Draft) : String :=
  (if d.pragma.isEmpty then "" else d.pragma ++ "\n\n") ++
    "contract I" ++ d.name ++ " \x7b\n" ++
    (if d.block.isEmpty then "" else d.stubs ++ "\n") ++ "\x7d"

end Draft

end SolidityStubs

import SolidityStubs.Source.Grammar
import SolidityStubs.Source.SyntaxError
import SolidityStubs.Source.Tree

/-! # Reading a source

`parse` gives the declarations of a source, or the error at the furthest place at which reading got
stuck.
-/
namespace SolidityStubs.Source

/-- A bound on the depth of calls. At one position only few rules can be open, and the position
moves on before a rule is entered again. -/
def depthBound (cs : List Char) : Nat :=
  64 * (cs.length + 1)

def runRule (r : Rule) (cs : List Char) : Peg.Run Rule :=
  grammar.run (depthBound cs) .spaced r (.ofText cs)

def tree (source : String) : Except SyntaxError Tree :=
  let run := runRule .sourceUnit source.toList
  match run.outcome with
  | .matched _ (root :: _) => .ok root
  | _ => .error (.ofFurthest source.toList run.trace.furthest)

def parse (source : String) : Except SyntaxError SourceUnit :=
  (tree source).map .ofTree

end SolidityStubs.Source

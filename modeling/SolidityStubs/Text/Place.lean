import SolidityStubs.Text.Span

/-! # Lines and columns

A place in a text is given by the characters before it and the characters from it on. Only a line
feed ends a line, columns count characters, and both counts start at one.
-/
namespace SolidityStubs.Text

structure Place where
  line : Nat
  column : Nat
deriving DecidableEq, Repr

def lineHead (before : List Char) : List Char :=
  (before.reverse.takeWhile (· != '\n')).reverse

def lineTail : List Char → List Char
  | [] => []
  | c :: cs => if c == '\n' then [c] else c :: lineTail cs

def Place.after (before : List Char) : Place :=
  ⟨before.count '\n' + 1, (lineHead before).length + 1⟩

/-- Splits a text at a byte offset. An offset that is no place in it stands for its end. -/
def splitAtByte (offset : Nat) (cs : List Char) : List Char × List Char :=
  match dropBytes? offset cs with
  | some after => (takeBytes offset cs, after)
  | none => (cs, [])

end SolidityStubs.Text

import SolidityStubs.Peg.Trace
import SolidityStubs.Source.Rule
import SolidityStubs.Text.Place

/-! # Syntax errors

A syntax error names the furthest place at which the source could not be read on, shows its line and
lists the rules that were tried there.
-/
namespace SolidityStubs

open Source (Rule)

structure SyntaxError where
  /-- The place in bytes. -/
  offset : Nat
  place : Text.Place
  /-- The line that the report shows. -/
  shownLine : List Char
  expected : List Rule
deriving DecidableEq, Repr

namespace SyntaxError

/-- The line around a place. Its line ends are left out, unless the place is at one: then they are
drawn as characters. -/
def drawLine (before after : List Char) : List Char :=
  let line := Text.lineHead before ++ Text.lineTail after
  if after.head? == some '\r' || after.head? == some '\n' then
    line.map fun c => if c == '\r' then '␍' else if c == '\n' then '␊' else c
  else
    line.filter fun c => c != '\r' && c != '\n'

/-- The error at the furthest failure. Its rules come in the order of the grammar, each once. -/
def ofFurthest (source : List Char) (f : Peg.Furthest Rule) : SyntaxError :=
  let (before, after) := Text.splitAtByte f.offset source
  { offset := f.offset
    place := .after before
    shownLine := drawLine before after
    expected := Rule.all.filter (f.expected.contains ·) }

def enumerate : List String → String
  | [] => ""
  | [a] => a
  | [a, b] => a ++ " or " ++ b
  | names => ", ".intercalate names.dropLast ++ ", or " ++ names.getLastD ""

/-- The mark under the shown line. A tab stays a tab, so that the mark keeps its column. -/
def underline (e : SyntaxError) : String :=
  String.ofList ((e.shownLine.take (e.place.column - 1)).map fun c => if c == '\t' then c else ' ')
    ++ "^---"

def report (e : SyntaxError) : String :=
  let line := toString e.place.line
  let margin := String.ofList (List.replicate line.length ' ')
  "\n".intercalate [
    margin ++ "--> " ++ line ++ ":" ++ toString e.place.column,
    margin ++ " |",
    line ++ " | " ++ String.ofList e.shownLine,
    margin ++ " | " ++ e.underline,
    margin ++ " |",
    margin ++ " = expected " ++ enumerate (e.expected.map Rule.name)]

end SyntaxError

end SolidityStubs

import SolidityStubs.Peg.Basic

/-! # Padding between tokens

Padding is a run of spaces, tabs, line ends and comments. A line comment stops in front of the line
end. A block comment that is never closed is no comment, so padding stops in front of it.
-/
namespace SolidityStubs.Source

open Peg (Cursor)

def isSpace (c : Char) : Bool :=
  c == ' ' || c == '\t' || c == '\r' || c == '\n'

def isLineEnd (c : Char) : Bool :=
  c == '\n' || c == '\r'

def lineEnd : Nat → List Char → Cursor
  | n, [] => ⟨n, []⟩
  | n, c :: cs => if isLineEnd c then ⟨n, c :: cs⟩ else lineEnd (n + c.utf8Size) cs

def blockEnd? : Nat → List Char → Option Cursor
  | _, [] => none
  | n, '*' :: '/' :: cs => some ⟨n + 2, cs⟩
  | n, c :: cs => blockEnd? (n + c.utf8Size) cs

def trivium? : Cursor → Option Cursor
  | ⟨_, []⟩ => none
  | ⟨n, '/' :: '/' :: cs⟩ => some (lineEnd (n + 2) cs)
  | ⟨n, '/' :: '*' :: cs⟩ => blockEnd? (n + 2) cs
  | ⟨n, c :: cs⟩ => if isSpace c then some ⟨n + 1, cs⟩ else none

def skipWithin : List Char → Cursor → Cursor
  | [], c => c
  | _ :: budget, c =>
    match trivium? c with
    | some stop => skipWithin budget stop
    | none => c

/-- Passes all padding at a position. Each piece takes at least one character, so the budget never
runs out early. -/
def skip (c : Cursor) : Cursor :=
  skipWithin c.rest c

end SolidityStubs.Source

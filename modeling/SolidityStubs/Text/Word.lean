import SolidityStubs.Text.WordRanges

/-! # Words

A word character is a letter, a digit, a mark, a connector such as `_` or a join control. A word
boundary lies between a word character and anything else, the ends of the text included.
`replaceWords` replaces listed names where a boundary stands on both sides.
-/
namespace SolidityStubs.Text

def isWord (c : Char) : Bool :=
  let n := c.toNat
  if n < 0x80 then c.isAlphanum || c == '_'
  else wordRanges.any fun r => r.1 ≤ n && n ≤ r.2

/-- A boundary lies between two neighbours of which exactly one is a word character. The end of the
text is no word character. -/
def isBoundary (before after : Option Char) : Bool :=
  before.any isWord != after.any isWord

def standsAt (before : Option Char) (cs name : List Char) : Bool :=
  name.isPrefixOf cs && isBoundary before cs.head? &&
    isBoundary name.getLast? (cs.drop name.length).head?

/-- Walks the text from left to right: `before` is the character just passed and `passing` counts
the characters of a replaced name that are still to be passed over. -/
def replaceFrom (names : List (List Char)) (new : List Char) :
    Option Char → Nat → List Char → List Char
  | _, _, [] => []
  | _, passing + 1, c :: cs => replaceFrom names new (some c) passing cs
  | before, 0, c :: cs =>
    match names.find? (standsAt before (c :: cs)) with
    | some name => new ++ replaceFrom names new (some c) (name.length - 1) cs
    | none => c :: replaceFrom names new (some c) 0 cs

/-- Puts `new` in place of each name that stands between two boundaries. The leftmost place comes
first, and at one place the name that is listed first; replaced text is not looked at again, and an
empty name is ignored. -/
def replaceWords (names : List String) (new text : String) : String :=
  String.ofList
    (replaceFrom ((names.map String.toList).filter (! ·.isEmpty)) new.toList none 0 text.toList)

theorem replaceFrom_nil (new : List Char) (before : Option Char) (cs : List Char) :
    replaceFrom [] new before 0 cs = cs := by
  induction cs generalizing before with
  | nil => simp [replaceFrom]
  | cons c cs ih => simp [replaceFrom, ih]

theorem replaceWords_nil (new text : String) : replaceWords [] new text = text := by
  simp [replaceWords, replaceFrom_nil]

end SolidityStubs.Text

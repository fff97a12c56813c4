/-! # Blank characters

A character is blank if it has the Unicode property White_Space. `trim` removes the blanks at both
ends of a text.
-/
namespace SolidityStubs.Text

def isBlank (c : Char) : Bool :=
  let n := c.toNat
  (0x09 ≤ n && n ≤ 0x0D) || n == 0x20 || n == 0x85 || n == 0xA0 || n == 0x1680 ||
    (0x2000 ≤ n && n ≤ 0x200A) || n == 0x2028 || n == 0x2029 || n == 0x202F || n == 0x205F ||
    n == 0x3000

def trimLeft (cs : List Char) : List Char :=
  cs.dropWhile isBlank

def trimRight (cs : List Char) : List Char :=
  (trimLeft cs.reverse).reverse

def trimChars (cs : List Char) : List Char :=
  trimRight (trimLeft cs)

def trim (text : String) : String :=
  String.ofList (trimChars text.toList)

end SolidityStubs.Text

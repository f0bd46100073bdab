/-!
# Blank characters

The characters with the Unicode property `White_Space`, and the text that remains when they
are taken off both ends.
-/
namespace Dispatch.Text

/-- Whether a character is white space. -/
def isBlank (c : Char) : Bool :=
  let n := c.toNat
  (0x9 ≤ n && n ≤ 0xd) || n == 0x20 || n == 0x85 || n == 0xa0 || n == 0x1680 ||
    (0x2000 ≤ n && n ≤ 0x200a) || n == 0x2028 || n == 0x2029 || n == 0x202f || n == 0x205f ||
    n == 0x3000

/-- The characters without the blanks at both ends. -/
def trimBlanks (cs : List Char) : List Char :=
  ((cs.dropWhile isBlank).reverse.dropWhile isBlank).reverse

/-- Whether a text has no character other than blanks. -/
def isBlankText (s : String) : Bool := s.toList.all isBlank

/-- Whether a text can stand as one word: it is not empty and has no blank in it. -/
def isWord (s : String) : Bool := !s.isEmpty && !s.toList.any isBlank

end Dispatch.Text

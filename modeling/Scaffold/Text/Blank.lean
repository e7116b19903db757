/-! # Blank characters

Four sets of blank characters are in use, and they differ: the blanks and tabs that make up
indentation, the ASCII white space of byte strings, the white space of Unicode text, and the
characters that separate the tokens of a source file.
-/

namespace Scaffold.Text

/-- A space or a tab. -/
def isIndent (b : UInt8) : Bool := b = 32 || b = 9

/-- ASCII white space: tab, line feed, vertical tab, form feed, carriage return and space. -/
def isBlankByte (b : UInt8) : Bool := (9 ≤ b && b ≤ 13) || b = 32

/-- White space of Unicode text, with the four information separators. -/
def isBlank (c : Char) : Bool :=
  let n := c.toNat
  (9 ≤ n && n ≤ 13) || (28 ≤ n && n ≤ 32) || n = 0x85 || n = 0xA0 || n = 0x1680 ||
    (0x2000 ≤ n && n ≤ 0x200A) || n = 0x2028 || n = 0x2029 || n = 0x202F || n = 0x205F || n = 0x3000

/-- A character that may stand between two tokens of a source file. -/
def isSeparator (c : Char) : Bool :=
  let n := c.toNat
  (9 ≤ n && n ≤ 13) || n = 32 || n = 0x85 || n = 0xA0 || n = 0x1680 ||
    (0x2000 ≤ n && n ≤ 0x200B) || n = 0x2028 || n = 0x2029 || n = 0x202F || n = 0x205F ||
    n = 0x2060 || n = 0x3000 || n = 0xFEFF

/-- A blank at which a line may be broken; the search for the end of a statement steps over these. -/
def isLineBlank (c : Char) : Bool :=
  let n := c.toNat
  (9 ≤ n && n ≤ 13) || n = 32 || n = 0x1680 || (0x2000 ≤ n && n ≤ 0x2006) ||
    (0x2008 ≤ n && n ≤ 0x200A) || n = 0x2028 || n = 0x2029 || n = 0x205F || n = 0x3000

/-- A text without the white space at its two ends. -/
def strip (text : List Char) : List Char :=
  ((text.dropWhile isBlank).reverse.dropWhile isBlank).reverse

end Scaffold.Text

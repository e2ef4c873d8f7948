/-!
White space of the Unicode standard, and lines of a text.
-/

namespace SyndromeSchedule.Text

/-- Whether a character has the White_Space property. -/
def isBlank (c : Char) : Bool :=
  let n := c.toNat
  (9 ≤ n && n ≤ 13) || n = 0x20 || n = 0x85 || n = 0xa0 || n = 0x1680 ||
    (0x2000 ≤ n && n ≤ 0x200a) || n = 0x2028 || n = 0x2029 || n = 0x202f ||
    n = 0x205f || n = 0x3000

def trimStart (text : List Char) : List Char :=
  text.dropWhile isBlank

def trim (text : List Char) : List Char :=
  ((trimStart text).reverse.dropWhile isBlank).reverse

/-- Everything before the first line feed, without a carriage return that stands right before it. -/
def lineHead (text : List Char) : List Char :=
  let line := text.takeWhile (· ≠ '\n')
  if line.length < text.length && line.getLast? = some '\r' then line.dropLast else line

/-- First line of what follows leading white space. -/
def firstLine (text : List Char) : List Char :=
  lineHead (trimStart text)

end SyndromeSchedule.Text

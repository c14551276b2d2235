import Reckoner.Text

/-!
# Lines of a text

A line ends at a line feed, a carriage return, both in this order, or another
character that separates lines or paragraphs. A text that ends with such a
character has no further, empty line after it.
-/

namespace Reckoner

def isLineBreak (c : Char) : Bool :=
  let n := c.toNat
  (10 ≤ n && n ≤ 13) || (28 ≤ n && n ≤ 30) || n == 0x85 || n == 0x2028 || n == 0x2029

namespace Text

/-- The lines of what is left of a text; `line` has the characters of the current
line, the last one first. -/
def linesFrom (line : Text) : Text → List Text
  | [] => if line.isEmpty then [] else [line.reverse]
  | '\r' :: '\n' :: rest => line.reverse :: linesFrom [] rest
  | c :: rest => if isLineBreak c then line.reverse :: linesFrom [] rest else linesFrom (c :: line) rest

def lines (t : Text) : List Text := linesFrom [] t

/-- The lines of what is left of a text where only a line feed ends a line. -/
def fedLinesFrom (line : Text) : Text → List Text
  | [] => if line.isEmpty then [] else [line.reverse]
  | c :: rest =>
    if c == '\n' then line.reverse :: fedLinesFrom [] rest else fedLinesFrom (c :: line) rest

/-- The lines of a text as they are read from an input: only a line feed ends a line. -/
def fedLines (t : Text) : List Text := fedLinesFrom [] t

end Text

end Reckoner

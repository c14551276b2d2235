import Reckoner.Text.Bracket

/-!
# Positions from either end

A position may count from the front (zero and up) or, when negative, from the end.
Cutting a text at a position outside it leaves everything or nothing on one side;
there is no character at such a position.
-/

namespace Reckoner

namespace Text

/-- The number of characters before a position. -/
def offset (t : Text) (position : Int) : Nat :=
  if position < 0 then (t.length + position).toNat else position.toNat

/-- What is before a position. -/
def upTo (t : Text) (position : Int) : Text := t.take (t.offset position)

/-- What is at a position and after it. -/
def onward (t : Text) (position : Int) : Text := t.drop (t.offset position)

theorem upTo_append_onward (t : Text) (position : Int) :
    t.upTo position ++ t.onward position = t := List.take_append_drop _ _

/-- The character at a position. -/
def charAt? (t : Text) (position : Int) : Option Char :=
  if t.length + position < 0 then none else t[t.offset position]?

end Text

/-- What comes of looking for the closer of a square bracket. -/
inductive CloserSearch where
  | found (position : Int)
  | unclosed
  /-- The search starts before the text. -/
  | outside
deriving DecidableEq, Repr

/-- Looks for the closer of the square bracket at `start`; its position is counted as
`start` is. Counting from the end runs on into the front of the text. -/
def closingBracketAt (t : Text) (start : Int) : CloserSearch :=
  if t.length + start < 0 then .outside
  else
    let read := if start < 0 then t.onward start ++ t else t.onward start
    match closingBracket read with
    | some index => .found (start + index)
    | none => .unclosed

end Reckoner

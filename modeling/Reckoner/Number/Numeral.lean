import Reckoner.Number.Layout
import Reckoner.Text.Digit

/-!
# Numerals

An unsigned numeral has digits with an optional point and, after an exponent
mark, an optionally signed exponent. `Numeral.scan` takes the longest numeral off
the front of a text and leaves the rest; a text is a numeral if nothing is left.
-/

namespace Reckoner

/-- An unsigned numeral, kept as it was written. -/
structure Numeral where
  /-- The digits before the point. -/
  whole : Text
  /-- The point, if there is one, and the digits after it. -/
  fraction : Text
  /-- The exponent mark with the sign and the digits after it, or nothing. -/
  exponent : Text
deriving DecidableEq, Repr

namespace Numeral

/-- The characters of the numeral. -/
def text (n : Numeral) : Text := n.whole ++ n.fraction ++ n.exponent

/-- Takes a sign off the front of a text, if there is one. -/
def takeSign : Text → Text × Text
  | '+' :: rest => (['+'], rest)
  | '-' :: rest => (['-'], rest)
  | t => ([], t)

theorem takeSign_append (t : Text) : (takeSign t).1 ++ (takeSign t).2 = t := by
  unfold takeSign
  split <;> rfl

/-- Takes an exponent off the front of a text; without a digit there is none. -/
def scanExponent (isMark : Char → Bool) : Text → Text × Text
  | mark :: rest =>
    let (sign, body) := takeSign rest
    let digits := body.takeWhile isDecimalDigit
    if isMark mark && !digits.isEmpty then
      (mark :: (sign ++ digits), body.dropWhile isDecimalDigit)
    else ([], mark :: rest)
  | [] => ([], [])

theorem scanExponent_append (isMark : Char → Bool) (t : Text) :
    (scanExponent isMark t).1 ++ (scanExponent isMark t).2 = t := by
  cases t with
  | nil => rfl
  | cons mark rest =>
    simp only [scanExponent]
    split
    · rw [List.cons_append, List.append_assoc, List.takeWhile_append_dropWhile, takeSign_append]
    · rfl

/-- Takes the digits with their point off the front of a text; without a digit on
either side there is no numeral. -/
def scanSignificand (t : Text) : Option (Text × Text × Text) :=
  let whole := t.takeWhile isDecimalDigit
  match t.dropWhile isDecimalDigit with
  | '.' :: rest =>
    let places := rest.takeWhile isDecimalDigit
    if whole.isEmpty && places.isEmpty then none
    else some (whole, '.' :: places, rest.dropWhile isDecimalDigit)
  | rest => if whole.isEmpty then none else some (whole, [], rest)

theorem scanSignificand_append {t whole fraction rest : Text}
    (h : scanSignificand t = some (whole, fraction, rest)) : whole ++ (fraction ++ rest) = t := by
  have hs := List.takeWhile_append_dropWhile (p := isDecimalDigit) (l := t)
  simp only [scanSignificand] at h
  split at h
  · next places e =>
    split at h
    · simp at h
    · simp only [Option.some.injEq, Prod.mk.injEq] at h
      obtain ⟨rfl, rfl, rfl⟩ := h
      rw [List.cons_append, List.takeWhile_append_dropWhile, ← e, hs]
  · split at h
    · simp at h
    · simp only [Option.some.injEq, Prod.mk.injEq] at h
      obtain ⟨rfl, rfl, rfl⟩ := h
      exact hs

/-- The longest numeral that starts the text, and what follows it. -/
def scan (isMark : Char → Bool) (t : Text) : Option (Numeral × Text) :=
  (scanSignificand t).map fun (whole, fraction, rest) =>
    let (exponent, rest) := scanExponent isMark rest
    ({ whole, fraction, exponent }, rest)

/-- What is scanned and what is left make up the text. -/
theorem scan_append {isMark : Char → Bool} {t rest : Text} {n : Numeral}
    (h : scan isMark t = some (n, rest)) : n.text ++ rest = t := by
  obtain ⟨⟨whole, fraction, tail⟩, hs, he⟩ := Option.map_eq_some_iff.mp h
  simp only [Prod.mk.injEq] at he
  obtain ⟨rfl, rfl⟩ := he
  simp only [text, List.append_assoc, scanExponent_append, scanSignificand_append hs]

/-- Reads a text that is one numeral from end to end; `e` and `E` both mark an
exponent. -/
def ofText? (t : Text) : Option Numeral :=
  match scan (fun c => c == 'e' || c == 'E') t with
  | some (numeral, []) => some numeral
  | _ => none

theorem text_of_ofText {t : Text} {n : Numeral} (h : ofText? t = some n) : n.text = t := by
  unfold ofText? at h
  split at h
  · next m hs =>
    cases h
    simpa using scan_append hs
  · simp at h

/-- The exponent as a number. -/
def exponentValue (n : Numeral) : Int :=
  match n.exponent with
  | _ :: '-' :: digits => -(digitsValue digits : Int)
  | _ :: '+' :: digits => digitsValue digits
  | _ :: digits => digitsValue digits
  | [] => 0

/-- The exact number that the numeral denotes. -/
def value (n : Numeral) : Decimal :=
  let places := n.fraction.drop 1
  { digits := digitsValue (n.whole ++ places)
    exponent := n.exponentValue - places.length }

/-- The nearest double, with a sign; nothing if it would be infinite. -/
def toDouble? (n : Numeral) (negative : Bool) : Option Float :=
  n.value.toWord?.map (ofWord negative)

end Numeral

/-- The sign inside an expression of a negative number that stands for a group:
it cannot be taken for a subtraction. -/
def negativeMark : Char := '_'

/-- Upper case of the letters of the Latin alphabet. -/
def upperLatin (t : Text) : Text := t.map Char.toUpper

/-- A double in the form an expression can hold: the shortest text that reads
back, with an upper-case exponent mark, and `_` for the sign. -/
def literalText (x : Float) : Text :=
  match upperLatin (shortestText x) with
  | '-' :: magnitude => negativeMark :: magnitude
  | magnitude => magnitude

end Reckoner

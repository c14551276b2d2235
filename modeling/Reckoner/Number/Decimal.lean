import Reckoner.Number.Double

/-!
# Decimals and the fewest digits that read back

A decimal is a whole number of some power of ten. `shortest` is the decimal with
the fewest digits that reads back as the double it was made from: the grids of
one, two, … seventeen digits are tried in turn, and on each grid only the two
neighbours of the exact value, the nearer one first. Should no grid answer, the
exact expansion is always there.
-/

namespace Reckoner

/-- The number `digits * 10 ^ exponent`. -/
structure Decimal where
  digits : Nat
  exponent : Int
deriving DecidableEq, Repr

namespace Decimal

def toFraction (d : Decimal) : Fraction := (Fraction.ofNat d.digits).scale 10 d.exponent

/-- Decimal places beyond which every nonzero number rounds to nothing or to
infinity: doubles lie between `10 ^ (-324)` and `10 ^ 309`. -/
def reach : Int := 400

/-- The word of the double nearest to a decimal; nothing if it would be infinite. The
exponent is looked at first, so that no power of ten beyond reach is computed. -/
def toWord? (d : Decimal) : Option Nat :=
  if d.digits = 0 then some 0
  else if reach < d.exponent then none
  else if d.exponent + Fraction.decimalSize d.digits < -reach then some 0
  else d.toFraction.toWord?

/-- Takes zeros off the end of the digits. -/
def trimmed (d : Decimal) : Decimal :=
  if _h : d.digits ≠ 0 ∧ d.digits % 10 = 0 then
    trimmed { digits := d.digits / 10, exponent := d.exponent + 1 }
  else d
termination_by d.digits
decreasing_by omega

/-- The multiple of `10 ^ place` nearest to `f`, a half going to the even one. -/
def nearest (f : Fraction) (place : Int) : Decimal :=
  { digits := (f.scale 10 (-place)).round, exponent := place }

/-- The two multiples of `10 ^ place` around `f`, the nearer one first. -/
def neighbours (f : Fraction) (place : Int) : List Decimal :=
  let scaled := f.scale 10 (-place)
  let near := scaled.round
  let far := if near * scaled.den ≤ scaled.num then near + 1 else near - 1
  [{ digits := near, exponent := place }, { digits := far, exponent := place }]

/-- All digits of `significand * 2 ^ exponent`. -/
def ofBinary (significand : Nat) (exponent : Int) : Decimal :=
  { digits := significand * Nat.pow 2 exponent.toNat * Nat.pow 5 (-exponent).toNat
    exponent := min exponent 0 }

/-- Digits that suffice for every double. -/
def enoughDigits : Nat := 17

/-- The decimal with the fewest digits that reads back as the magnitude
`significand * 2 ^ exponent`, which is not zero. -/
def shortest (significand : Nat) (exponent : Int) : Decimal :=
  let f := Fraction.ofBinary significand exponent
  let found := (List.range enoughDigits).findSome? fun (n : Nat) =>
    (neighbours f (f.floorLog10 - n)).find? (·.toWord? == f.toWord?)
  (found.getD (ofBinary significand exponent)).trimmed

/-- Rounds `f`, which is not zero, to `count` significant digits. -/
def toPrecision (f : Fraction) (count : Nat) : Decimal :=
  (nearest f (f.floorLog10 - (count - 1))).trimmed

end Decimal

end Reckoner

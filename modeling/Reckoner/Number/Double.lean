import Reckoner.Number.Fraction

/-!
# Doubles as exact numbers

`denote` reads the sign, the significand and the exponent off the word of a
double, and `Fraction.toWord?` is the way back: the word of the double nearest to
an exact fraction, or nothing when that is beyond the largest finite one. Rounding
to whole numbers and the remainder are computed on these exact values, without any
floating-point operation in between.
-/

namespace Reckoner

/-- What a double stands for. -/
inductive Denotation where
  /-- `significand * 2 ^ exponent`, negated if `negative`; zero has a sign too. -/
  | finite (negative : Bool) (significand : Nat) (exponent : Int)
  | infinite (negative : Bool)
  | undefined
deriving DecidableEq, Repr

/-- The exponent of the smallest positive double. -/
def leastExponent : Int := -1074

/-- The lowest bit of the exponent field, `2 ^ 52`; the fraction field is below it. -/
def exponentUnit : Nat := 4503599627370496

/-- The sign bit, `2 ^ 63`. -/
def signBit : Nat := 9223372036854775808

/-- The word of infinity: larger words do not stand for finite numbers. -/
def infinityWord : Nat := 2047 * exponentUnit

def denote (x : Float) : Denotation :=
  let word := x.toBits.toNat
  let negative := decide (signBit ≤ word)
  let biased : Nat := word / exponentUnit % 2048
  let stored : Nat := word % exponentUnit
  if biased = 2047 then
    if stored = 0 then .infinite negative else .undefined
  else if biased = 0 then .finite negative stored leastExponent
  else .finite negative (exponentUnit + stored) ((biased : Int) - 1 + leastExponent)

/-- The magnitude `significand * 2 ^ exponent`. -/
def Fraction.ofBinary (significand : Nat) (exponent : Int) : Fraction :=
  (Fraction.ofNat significand).scale 2 exponent

/-- The word of the double nearest to `f`. The significand has 53 binary digits
unless the exponent is already the least one; the two parts are added, so a
significand that rounds up to the next power of two carries into the exponent. -/
def Fraction.nearestWord (f : Fraction) : Nat :=
  let exponent := max (f.floorLog2 - 52) leastExponent
  (exponent - leastExponent).toNat * exponentUnit + (f.scale 2 (-exponent)).round

/-- The word of the double nearest to `f`, a tie going to the even significand;
nothing if it would be infinite. -/
def Fraction.toWord? (f : Fraction) : Option Nat :=
  let word := if f.num = 0 then 0 else f.nearestWord
  if word < infinityWord then some word else none

/-- The double of a sign and the word of its magnitude. -/
def ofWord (negative : Bool) (word : Nat) : Float :=
  Float.ofBits (UInt64.ofNat (word + if negative then signBit else 0))

/-- The double nearest to `f` with a sign; nothing if it would be infinite. -/
def Fraction.toDouble? (f : Fraction) (negative : Bool) : Option Float :=
  f.toWord?.map (ofWord negative)

/-- The double nearest to a whole number; nothing if it would be infinite. -/
def intToDouble? (n : Int) : Option Float := (Fraction.ofNat n.natAbs).toDouble? (n < 0)

/-! ## Whole numbers near a double -/

def signedInt (negative : Bool) (n : Nat) : Int := if negative then -(n : Int) else n

/-- A way to choose a whole number next to a signed magnitude. -/
def wholeNear (choose : Bool → Fraction → Nat) (x : Float) : Option Int :=
  match denote x with
  | .finite negative m e => some (signedInt negative (choose negative (.ofBinary m e)))
  | _ => none

/-- The nearest whole number, a half going to the even one; nothing for
infinities and undefined values. -/
def roundToInt? (x : Float) : Option Int := wholeNear (fun _ f => f.round) x

def floorToInt? (x : Float) : Option Int :=
  wholeNear (fun negative f => if negative then f.ceil else f.floor) x

def ceilToInt? (x : Float) : Option Int :=
  wholeNear (fun negative f => if negative then f.floor else f.ceil) x

/-- The remainder of `left / right` with the quotient cut off toward zero. It has
the sign of `left` and is exact: both significands are brought to the lesser of
the two exponents. An infinite divisor leaves a finite `left` as it is. -/
def remainder (left right : Float) : Float :=
  match denote left, denote right with
  | .finite negative m e, .finite _ n k =>
    let least := min e k
    let rest := m * Nat.pow 2 (e - least).toNat % (n * Nat.pow 2 (k - least).toNat)
    ((Fraction.ofBinary rest least).toDouble? negative).getD left
  | .finite .., .infinite _ => left
  | _, _ => left - right

end Reckoner

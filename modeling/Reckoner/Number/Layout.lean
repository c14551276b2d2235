import Reckoner.Number.Decimal
import Reckoner.Text

/-!
# How numbers are written

A layout says which decimal exponents are written positionally and whether a
whole number keeps its `.0`; all else is common to every number the program
writes: no zeros at the end of a fraction, a signed exponent of at least two
digits, `inf` and `nan`. Three writers are built on it: `shortestText` reads back
exactly, `generalText` has six significant digits, and `displayText` is what
reports and steps show.
-/

namespace Reckoner

/-- The digits of a whole number. -/
def natText (n : Nat) : Text := Nat.toDigits 10 n

def intText (n : Int) : Text := if n < 0 then '-' :: natText n.natAbs else natText n.natAbs

def zeros (n : Nat) : Text := List.replicate n '0'

namespace Decimal

/-- The power of ten of the first digit. -/
def leadingExponent (d : Decimal) : Int := d.exponent + (natText d.digits).length - 1

/-- Digits around a decimal point where the value puts it. -/
def positional (d : Decimal) : Text :=
  let digits := natText d.digits
  if 0 ≤ d.exponent then digits ++ zeros d.exponent.toNat
  else
    let places := (-d.exponent).toNat
    let padded := zeros (places + 1 - digits.length) ++ digits
    let whole := padded.length - places
    padded.take whole ++ '.' :: padded.drop whole

/-- One digit, a point and the others, and the exponent with its sign and at least
two digits. -/
def scientific (d : Decimal) : Text :=
  let exponent := d.leadingExponent
  let digits := natText exponent.natAbs
  let shown := zeros (2 - digits.length) ++ digits
  let significand := match natText d.digits with
    | first :: rest => if rest.isEmpty then [first] else first :: '.' :: rest
    | [] => []
  significand ++ 'e' :: (if exponent < 0 then '-' else '+') :: shown

end Decimal

/-- Where positional writing starts and ends, by the exponent of the first digit. -/
structure Layout where
  /-- The least exponent written positionally. -/
  positionalFrom : Int := -4
  /-- The exponents from here on are written in scientific form. -/
  positionalBelow : Int
  /-- Whether a whole number written positionally ends in `.0`. -/
  keepsPoint : Bool := false

def Layout.write (layout : Layout) (d : Decimal) : Text :=
  let exponent := d.leadingExponent
  if layout.positionalFrom ≤ exponent ∧ exponent < layout.positionalBelow then
    let text := d.positional
    if layout.keepsPoint ∧ 0 ≤ d.exponent then text ++ ['.', '0'] else text
  else d.scientific

/-- The text of a double, given how a nonzero magnitude becomes a decimal. -/
def Layout.writeDouble (layout : Layout) (choose : Nat → Int → Decimal) (x : Float) : Text :=
  let signed (negative : Bool) (text : Text) : Text := if negative then '-' :: text else text
  match denote x with
  | .finite negative m e =>
    signed negative (layout.write (if m = 0 then { digits := 0, exponent := 0 } else choose m e))
  | .infinite negative => signed negative ['i', 'n', 'f']
  | .undefined => ['n', 'a', 'n']

/-- The shortest text that reads back: positional below `10 ^ 16`, with `.0` on
whole numbers. -/
def shortestLayout : Layout := { positionalBelow := 16, keepsPoint := true }

def shortestText (x : Float) : Text := shortestLayout.writeDouble Decimal.shortest x

/-- Six significant digits. -/
def generalText (x : Float) : Text :=
  ({ positionalBelow := 6 } : Layout).writeDouble
    (fun m e => Decimal.toPrecision (.ofBinary m e) 6) x

/-! ## Numbers for reading -/

/-- Magnitudes from here on are shown in scientific form, whole or not. -/
def largeFrom : Fraction := .ofNat 1000000000000000

/-- Fractions below this are shown in scientific form: the double nearest to a
millionth, which is a little less than a millionth. -/
def smallBelow : Fraction := .ofBinary 4722366482869645 (-72)

/-- Places after the point of a displayed fraction. -/
def displayPlaces : Nat := 15

/-- A number as reports and steps show it: whole numbers without a point,
fractions to fifteen places, and very large or very small magnitudes to ten
significant digits. -/
def displayText (x : Float) : Text :=
  match denote x with
  | .finite negative m e =>
    let f := Fraction.ofBinary m e
    let sign := if negative then ['-'] else []
    if f.isLess largeFrom && f.isWhole then intText (signedInt negative f.floor)
    else if f.isLess largeFrom && !f.isLess smallBelow then
      sign ++ (Decimal.nearest f (-(displayPlaces : Int))).trimmed.positional
    else
      sign ++ ({ positionalBelow := 10 } : Layout).write (Decimal.toPrecision f 10)
  | _ => shortestText x

end Reckoner

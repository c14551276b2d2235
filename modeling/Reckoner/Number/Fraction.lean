/-!
# Exact nonnegative fractions

Every rule about the digits of a number is stated on exact fractions: a double
denotes one, a decimal denotes one, and rounding is a choice of a whole number
near one. `roundDiv` is the only rounding of the library; a half goes to the
even neighbour.
-/

namespace Reckoner

/-- The whole number nearest to `num / den`; a half goes to the even neighbour. -/
def roundDiv (num den : Nat) : Nat :=
  let whole := num / den
  let rest := num % den
  if 2 * rest < den then whole
  else if den < 2 * rest then whole + 1
  else whole + whole % 2

theorem roundDiv_mul_self (n : Nat) {den : Nat} (h : 0 < den) : roundDiv (n * den) den = n := by
  simp [roundDiv, Nat.mul_div_cancel n h, Nat.mul_mod_left, h]

theorem roundDiv_one (n : Nat) : roundDiv n 1 = n := by
  simpa using roundDiv_mul_self n Nat.one_pos

/-- Rounding moves a number by half a unit at most, up or down. -/
theorem roundDiv_near (num : Nat) {den : Nat} (h : 0 < den) :
    2 * (roundDiv num den * den) ≤ 2 * num + den ∧
      2 * num ≤ 2 * (roundDiv num den * den) + den := by
  have hd := Nat.div_add_mod' num den
  have hr := Nat.mod_lt num h
  have hs : (num / den + 1) * den = num / den * den + den := Nat.succ_mul _ _
  simp only [roundDiv]
  split
  · omega
  · split
    · omega
    · have : num / den % 2 = 0 ∨ num / den % 2 = 1 := by omega
      rcases this with e | e <;> simp only [e, Nat.add_zero] <;> omega

/-- A whole number over a positive one. It need not be in lowest terms. -/
structure Fraction where
  num : Nat
  den : Nat
  den_pos : 0 < den := by decide

namespace Fraction

def ofNat (n : Nat) : Fraction := { num := n, den := 1 }

/-- Multiplies by `base ^ power`, a negative power going to the denominator. -/
def scale (f : Fraction) (base : Nat) (power : Int) (base_pos : 0 < base := by decide) :
    Fraction where
  num := f.num * Nat.pow base power.toNat
  den := f.den * Nat.pow base (-power).toNat
  den_pos := Nat.mul_pos f.den_pos (Nat.pow_pos base_pos)

/-- The nearest whole number, a half going to the even neighbour. -/
def round (f : Fraction) : Nat := roundDiv f.num f.den

def floor (f : Fraction) : Nat := f.num / f.den

def ceil (f : Fraction) : Nat := (f.num + (f.den - 1)) / f.den

def isWhole (f : Fraction) : Bool := f.num % f.den == 0

def isLess (f g : Fraction) : Bool := f.num * g.den < g.num * f.den

/-- Number of binary digits; none for zero. -/
def bitSize (n : Nat) : Nat := if n = 0 then 0 else n.log2 + 1

/-- Number of decimal digits; one for zero. -/
def decimalSize (n : Nat) : Nat := if n < 10 then 1 else decimalSize (n / 10) + 1

/-- The greatest `k` with `base ^ k ≤ f`, given the count of digits in that base
of a positive number. Below one, `f` lies in `[base ^ (-k), base ^ (1 - k))` for
the least `k` with `den ≤ num * base ^ k`, which is the digit count of
`(den - 1) / num`. -/
def floorLog (f : Fraction) (size : Nat → Nat) : Int :=
  if f.den ≤ f.num then (size (f.num / f.den) : Int) - 1
  else -(size ((f.den - 1) / f.num) : Int)

def floorLog2 (f : Fraction) : Int := f.floorLog bitSize

def floorLog10 (f : Fraction) : Int := f.floorLog decimalSize

end Fraction

end Reckoner

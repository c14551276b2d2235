import Reckoner.Number.Decimal
import Mathlib.Algebra.Order.Field.Power
import Mathlib.Tactic.FieldSimp
import Mathlib.Tactic.Linarith
import Mathlib.Tactic.NormNum
import Mathlib.Tactic.Positivity
import Mathlib.Tactic.Ring

/-!
# Rounding depends on the value alone

A fraction need not be in lowest terms, and a decimal has many spellings. Here both are
taken as rational numbers, and the word of the nearest double is shown to depend on that
number only (`toWord?_congr`), to be exact on the numbers that doubles denote
(`toWord?_ofBinary`), and to be missing for a whole number exactly from `2 ^ 1024 - 2 ^ 970`
on (`toWord?_ofNat_eq_none_iff`).
-/

namespace Reckoner

/-! ## Rounding a quotient -/

theorem roundDiv_mul_mul_right (num den : Nat) {k : Nat} (hk : 0 < k) :
    roundDiv (num * k) (den * k) = roundDiv num den := by
  have hless : ∀ a b : Nat, (2 * (a * k) < b * k ↔ 2 * a < b) ∧ (b * k < 2 * (a * k) ↔ b < 2 * a) := by
    intro a b
    rw [← Nat.mul_assoc]
    exact ⟨Nat.mul_lt_mul_right hk, Nat.mul_lt_mul_right hk⟩
  simp only [roundDiv, Nat.mul_div_mul_right _ _ hk, Nat.mul_mod_mul_right, hless]

theorem roundDiv_congr {a b c d : Nat} (hb : 0 < b) (hd : 0 < d) (h : a * d = c * b) :
    roundDiv a b = roundDiv c d := by
  rw [← roundDiv_mul_mul_right a b hd, ← roundDiv_mul_mul_right c d hb, h, Nat.mul_comm b d]

/-- Halfway between two whole numbers the even one is taken. -/
theorem roundDiv_of_tie {num den w : Nat} (hd : 0 < den) (h : 2 * num = (2 * w + 1) * den) :
    roundDiv num den = w + w % 2 := by
  have hx : (2 * w + 1) * den = 2 * (w * den) + den := by ring
  have hq : num / den = w := by
    rw [Nat.div_eq_iff hd]
    have := Nat.mul_comm den w
    omega
  have hr : 2 * (num % den) = den := by
    have := Nat.div_add_mod' num den
    rw [hq] at this
    omega
  simp only [roundDiv, hq, hr, Nat.lt_irrefl, if_false]

namespace Fraction

/-! ## Fractions as rational numbers -/

/-- The rational number that a fraction is. -/
def rat (f : Fraction) : ℚ := f.num / f.den

theorem den_ne_zero (f : Fraction) : (f.den : ℚ) ≠ 0 := by
  have := f.den_pos
  positivity

theorem rat_eq_rat_iff {f g : Fraction} : f.rat = g.rat ↔ f.num * g.den = g.num * f.den := by
  rw [rat, rat, div_eq_div_iff f.den_ne_zero g.den_ne_zero]
  norm_cast

theorem rat_eq_zero_iff {f : Fraction} : f.rat = 0 ↔ f.num = 0 := by
  rw [rat, div_eq_zero_iff]
  simp [f.den_ne_zero]

@[simp] theorem rat_ofNat (n : Nat) : (ofNat n).rat = n := by simp [rat, ofNat]

theorem rat_scale (f : Fraction) {base : Nat} (power : Int) (hb : 0 < base) :
    (f.scale base power hb).rat = f.rat * (base : ℚ) ^ power := by
  have hbase : (base : ℚ) ≠ 0 := by positivity
  have hden := f.den_ne_zero
  simp only [rat, scale, Nat.pow_eq, Nat.cast_mul, Nat.cast_pow]
  rcases Int.eq_nat_or_neg power with ⟨n, rfl | rfl⟩
  · simp
    field_simp
  · simp
    field_simp

theorem rat_ofBinary (significand : Nat) (exponent : Int) :
    (ofBinary significand exponent).rat = significand * (2 : ℚ) ^ exponent := by
  rw [ofBinary, rat_scale, rat_ofNat]
  norm_num

theorem round_congr {f g : Fraction} (h : f.rat = g.rat) : f.round = g.round :=
  roundDiv_congr f.den_pos g.den_pos (rat_eq_rat_iff.mp h)

theorem round_of_rat_eq {f : Fraction} {n : Nat} (h : f.rat = n) : f.round = n := by
  rw [round_congr (h.trans (rat_ofNat n).symm)]
  exact roundDiv_one n

/-! ## The exponent of a fraction -/

theorem lt_pow_bitSize (n : Nat) : n < 2 ^ bitSize n := by
  rw [bitSize]
  split
  · omega
  · exact Nat.lt_log2_self

theorem pow_bitSize_sub_one_le {n : Nat} (h : 0 < n) : 2 ^ (bitSize n - 1) ≤ n := by
  rw [bitSize, if_neg (by omega)]
  exact Nat.log2_self_le (by omega)

theorem bitSize_pos {n : Nat} (h : 0 < n) : 0 < bitSize n := by
  rw [bitSize, if_neg (by omega)]
  omega

/-- A positive fraction lies between two neighbouring powers of two. -/
theorem floorLog2_spec {f : Fraction} (h : f.num ≠ 0) :
    (2 : ℚ) ^ f.floorLog2 ≤ f.rat ∧ f.rat < (2 : ℚ) ^ (f.floorLog2 + 1) := by
  have hd := f.den_pos
  have hdq : (0 : ℚ) < f.den := by positivity
  unfold floorLog2 floorLog rat
  by_cases hle : f.den ≤ f.num
  · rw [if_pos hle]
    have hq : 0 < f.num / f.den := Nat.div_pos hle hd
    have hs := bitSize_pos hq
    have hlow : 2 ^ (bitSize (f.num / f.den) - 1) * f.den ≤ f.num :=
      (Nat.le_div_iff_mul_le hd).mp (pow_bitSize_sub_one_le hq)
    have hhigh : f.num < 2 ^ bitSize (f.num / f.den) * f.den :=
      (Nat.div_lt_iff_lt_mul hd).mp (lt_pow_bitSize _)
    have he : ((bitSize (f.num / f.den) : Int) - 1) = ((bitSize (f.num / f.den) - 1 : Nat) : Int) := by
      omega
    rw [sub_add_cancel, he, zpow_natCast, zpow_natCast, le_div_iff₀ hdq, div_lt_iff₀ hdq]
    exact ⟨by exact_mod_cast hlow, by exact_mod_cast hhigh⟩
  · -- below one the powers are told by how often the numerator goes into the denominator
    rw [if_neg hle]
    have hn : 0 < f.num := Nat.pos_of_ne_zero h
    have hq : 0 < (f.den - 1) / f.num := Nat.div_pos (by omega) hn
    have hs := bitSize_pos hq
    have hlow : 2 ^ (bitSize ((f.den - 1) / f.num) - 1) * f.num ≤ f.den - 1 :=
      (Nat.le_div_iff_mul_le hn).mp (pow_bitSize_sub_one_le hq)
    have hhigh : f.den - 1 < 2 ^ bitSize ((f.den - 1) / f.num) * f.num :=
      (Nat.div_lt_iff_lt_mul hn).mp (lt_pow_bitSize _)
    generalize bitSize ((f.den - 1) / f.num) = size at *
    have hlow' : 2 ^ (size - 1) * f.num < f.den := by omega
    have hhigh' : f.den ≤ 2 ^ size * f.num := by omega
    have he : -(size : Int) + 1 = -((size - 1 : Nat) : Int) := by omega
    rw [he, zpow_neg, zpow_neg, zpow_natCast, zpow_natCast, le_div_iff₀ hdq, div_lt_iff₀ hdq]
    have hp : (0 : ℚ) < 2 ^ size := by positivity
    have hp' : (0 : ℚ) < 2 ^ (size - 1) := by positivity
    rw [inv_mul_le_iff₀ hp, lt_inv_mul_iff₀ hp']
    exact ⟨by exact_mod_cast hhigh', by exact_mod_cast hlow'⟩

/-- Only one exponent fits a positive number. -/
theorem floorLog2_eq_of_mem {f : Fraction} {e : Int} (h : f.num ≠ 0) (hl : (2 : ℚ) ^ e ≤ f.rat)
    (hr : f.rat < (2 : ℚ) ^ (e + 1)) : f.floorLog2 = e := by
  obtain ⟨hl', hr'⟩ := floorLog2_spec h
  have h1 := (zpow_lt_zpow_iff_right₀ (by norm_num : (1 : ℚ) < 2)).mp (hl.trans_lt hr')
  have h2 := (zpow_lt_zpow_iff_right₀ (by norm_num : (1 : ℚ) < 2)).mp (hl'.trans_lt hr)
  omega

theorem floorLog2_congr {f g : Fraction} (h : f.rat = g.rat) (hf : f.num ≠ 0) :
    f.floorLog2 = g.floorLog2 := by
  have hg : g.num ≠ 0 := by rwa [Ne, ← rat_eq_zero_iff, ← h, rat_eq_zero_iff]
  obtain ⟨hl, hr⟩ := floorLog2_spec hg
  exact floorLog2_eq_of_mem hf (h ▸ hl) (h ▸ hr)

/-! ## The nearest word -/

/-- The word of the nearest double depends on the value of the fraction alone. -/
theorem toWord?_congr {f g : Fraction} (h : f.rat = g.rat) : f.toWord? = g.toWord? := by
  have hz : f.num = 0 ↔ g.num = 0 := by rw [← rat_eq_zero_iff, ← rat_eq_zero_iff, h]
  by_cases hf : f.num = 0
  · simp only [toWord?, hf, hz.mp hf, if_true]
  · have he := floorLog2_congr h hf
    have hr : ∀ power : Int, (f.scale 2 power).round = (g.scale 2 power).round := by
      intro power
      exact round_congr (by rw [rat_scale, rat_scale, h])
    simp only [toWord?, hf, mt hz.mpr hf, if_false, nearestWord, he, hr]

/-- The numbers that doubles denote are rounded to themselves. -/
theorem toWord?_ofBinary {m : Nat} {e : Int} (hm : m < 2 ^ 53) (he : leastExponent ≤ e)
    (hn : 2 ^ 52 ≤ m ∨ e = leastExponent)
    (hw : (e - leastExponent).toNat * exponentUnit + m < infinityWord) :
    (ofBinary m e).toWord? = some ((e - leastExponent).toNat * exponentUnit + m) := by
  have hnum : (ofBinary m e).num = 0 ↔ m = 0 := by
    rw [← rat_eq_zero_iff, rat_ofBinary]
    have : (2 : ℚ) ^ e ≠ 0 := by positivity
    simp [this]
  by_cases hz : m = 0
  · have hle : e = leastExponent := by
      rcases hn with hn | hn
      · rw [hz] at hn
        norm_num at hn
      · exact hn
    simp only [toWord?, hz, hle, sub_self]
    rfl
  · have hlog : (ofBinary m e).floorLog2 = e + m.log2 := by
      have hpos : (0 : ℚ) < 2 ^ e := by positivity
      have h1 : ((2 ^ m.log2 : Nat) : ℚ) ≤ m := by exact_mod_cast Nat.log2_self_le hz
      have h2 : (m : ℚ) < ((2 ^ (m.log2 + 1) : Nat) : ℚ) := by exact_mod_cast Nat.lt_log2_self
      refine floorLog2_eq_of_mem (mt hnum.mp hz) ?_ ?_
      · rw [rat_ofBinary, zpow_add₀ two_ne_zero, mul_comm, zpow_natCast]
        push_cast at h1
        exact mul_le_mul_of_nonneg_right h1 hpos.le
      · rw [rat_ofBinary, add_assoc, zpow_add₀ two_ne_zero, mul_comm]
        push_cast at h2
        exact_mod_cast mul_lt_mul_of_pos_left h2 hpos
    have hexp : max (e + m.log2 - 52) leastExponent = e := by
      have h53 : m.log2 < 53 := (Nat.log2_lt hz).mpr hm
      rcases hn with hn | hn
      · have : 52 ≤ m.log2 := (Nat.le_log2 hz).mpr hn
        omega
      · omega
    have hround : ((ofBinary m e).scale 2 (-e)).round = m := by
      refine round_of_rat_eq ?_
      rw [rat_scale, rat_ofBinary]
      push_cast
      rw [mul_assoc, ← zpow_add₀ two_ne_zero, add_neg_cancel, zpow_zero, mul_one]
    simp only [toWord?, mt hnum.mp hz, if_false, nearestWord, hlog, hexp, hround, hw, if_true]

/-! ## Whole numbers beyond the largest double -/

/-- Half a unit above the largest double, `2 ^ 1024 - 2 ^ 970`: from here on a whole number has
no double. -/
def overflowFrom : Nat := (2 ^ 54 - 1) * 2 ^ 970

/-- The exponent is kept a variable, so that no step evaluates the power. -/
theorem exists_overflowFrom_eq : ∃ k, k = 970 ∧ overflowFrom = (2 ^ 54 - 1) * 2 ^ k :=
  ⟨970, rfl, rfl⟩

theorem two_mul_overflowFrom {k : Nat} (hk : k = 971) :
    2 * overflowFrom + 2 ^ k = 2 ^ 54 * 2 ^ k := by
  obtain ⟨e, he, h⟩ := exists_overflowFrom_eq
  rw [h, show k = e + 1 by omega, Nat.pow_succ]
  omega

theorem pow_lt_overflowFrom {k : Nat} (hk : k ≤ 1023) : 2 ^ k < overflowFrom := by
  obtain ⟨e, he, h⟩ := exists_overflowFrom_eq
  have hp : 2 ^ k ≤ 2 ^ (53 + e) := Nat.pow_le_pow_right Nat.two_pos (by omega)
  rw [Nat.pow_add] at hp
  rw [h]
  exact hp.trans_lt (Nat.mul_lt_mul_of_pos_right (by norm_num) (Nat.two_pow_pos e))

theorem overflowFrom_le_pow {k : Nat} (hk : 1024 ≤ k) : overflowFrom ≤ 2 ^ k := by
  obtain ⟨e, he, h⟩ := exists_overflowFrom_eq
  have hp : 2 ^ (54 + e) ≤ 2 ^ k := Nat.pow_le_pow_right Nat.two_pos (by omega)
  rw [Nat.pow_add] at hp
  rw [h]
  exact (Nat.mul_le_mul_right _ (by norm_num)).trans hp

theorem floorLog2_ofNat {n : Nat} (h : n ≠ 0) : (ofNat n).floorLog2 = n.log2 := by
  have h1 : ((2 ^ n.log2 : Nat) : ℚ) ≤ n := by exact_mod_cast Nat.log2_self_le h
  have h2 : (n : ℚ) < ((2 ^ (n.log2 + 1) : Nat) : ℚ) := by exact_mod_cast Nat.lt_log2_self
  refine floorLog2_eq_of_mem h ?_ ?_
  · rw [rat_ofNat, zpow_natCast]
    exact_mod_cast h1
  · rw [rat_ofNat]
    exact_mod_cast h2

/-- The word of a positive whole number with its leading bit at `log`, where that is
between the bits that a significand has and the greatest exponent. -/
theorem nearestWord_ofNat {n : Nat} (h : n ≠ 0) (hl : 52 ≤ n.log2) :
    (ofNat n).nearestWord =
      (n.log2 + 1022) * exponentUnit + roundDiv n (2 ^ (n.log2 - 52)) := by
  have hm : max ((n.log2 : Int) - 52) leastExponent = (n.log2 - 52 : Nat) := by
    simp only [leastExponent]
    omega
  have hs : ((n.log2 - 52 : Nat) : Int) - leastExponent = (n.log2 + 1022 : Nat) := by
    simp only [leastExponent]
    omega
  have hr : ((ofNat n).scale 2 (-((n.log2 - 52 : Nat) : Int))).round =
      roundDiv n (2 ^ (n.log2 - 52)) := by
    simp [round, scale, ofNat]
  simp only [nearestWord, floorLog2_ofNat h, hm, hs, hr, Int.toNat_natCast]

/-- A whole number below `2 ^ 52` is its own significand. -/
theorem nearestWord_ofNat_lt {n : Nat} (h : n ≠ 0) (hl : n.log2 < 52) :
    (ofNat n).nearestWord < infinityWord := by
  have hm : max ((n.log2 : Int) - 52) leastExponent = (n.log2 : Int) - 52 := by
    simp only [leastExponent]
    omega
  have hr : ((ofNat n).scale 2 (-((n.log2 : Int) - 52))).round = n * 2 ^ (52 - n.log2) := by
    refine round_of_rat_eq ?_
    rw [rat_scale, rat_ofNat]
    have : -((n.log2 : Int) - 52) = ((52 - n.log2 : Nat) : Int) := by omega
    rw [this, zpow_natCast]
    push_cast
    rfl
  have hb : n * 2 ^ (52 - n.log2) < 2 ^ 53 := by
    calc n * 2 ^ (52 - n.log2) < 2 ^ (n.log2 + 1) * 2 ^ (52 - n.log2) :=
          Nat.mul_lt_mul_of_pos_right Nat.lt_log2_self (by positivity)
      _ = 2 ^ 53 := by rw [← Nat.pow_add]; congr 1; omega
  simp only [nearestWord, floorLog2_ofNat h, hm, hr]
  have hc : ((n.log2 : Int) - 52 - leastExponent).toNat ≤ 1073 := by
    simp only [leastExponent]
    omega
  have := Nat.mul_le_mul_right exponentUnit hc
  simp only [infinityWord, exponentUnit] at *
  omega

theorem roundDiv_lt_of_log2 {n : Nat} (hl : 52 ≤ n.log2) :
    roundDiv n (2 ^ (n.log2 - 52)) ≤ 2 ^ 53 := by
  have hd : 0 < 2 ^ (n.log2 - 52) := by positivity
  have h1 := (roundDiv_near n hd).1
  have h2 : n < 2 ^ 53 * 2 ^ (n.log2 - 52) := by
    rw [← Nat.pow_add, show 53 + (n.log2 - 52) = n.log2 + 1 by omega]
    exact Nat.lt_log2_self
  generalize 2 ^ (n.log2 - 52) = den at *
  by_contra hc
  have h3 : (2 ^ 53 + 1) * den ≤ roundDiv n den * den := Nat.mul_le_mul_right _ (by omega)
  nlinarith

theorem pow_le_roundDiv_of_log2 {n : Nat} (hn : n ≠ 0) (hl : 52 ≤ n.log2) :
    2 ^ 52 ≤ roundDiv n (2 ^ (n.log2 - 52)) := by
  have hd : 0 < 2 ^ (n.log2 - 52) := by positivity
  have h1 := (roundDiv_near n hd).2
  have h2 : 2 ^ 52 * 2 ^ (n.log2 - 52) ≤ n := by
    rw [← Nat.pow_add, show 52 + (n.log2 - 52) = n.log2 by omega]
    exact Nat.log2_self_le hn
  generalize 2 ^ (n.log2 - 52) = den at *
  by_contra hc
  have h3 : roundDiv n den * den ≤ (2 ^ 52 - 1) * den := Nat.mul_le_mul_right _ (by omega)
  have h4 : (2 ^ 52 - 1) * den + den = 2 ^ 52 * den := by ring
  omega

/-- Half a unit below a power of two is a tie, which goes to the even significand: a quotient
reaches the power exactly from there on. -/
theorem pow_le_roundDiv_iff {n den bound : Nat} (hd : 0 < den)
    (hb : 2 * bound + den = 2 ^ 54 * den) : 2 ^ 53 ≤ roundDiv n den ↔ bound ≤ n := by
  obtain ⟨h1, h2⟩ := roundDiv_near n hd
  constructor
  · intro h
    have : 2 ^ 53 * den ≤ roundDiv n den * den := Nat.mul_le_mul_right _ h
    linarith
  · intro h
    by_contra hlt
    have hle : (roundDiv n den + 1) * den ≤ 2 ^ 53 * den :=
      Nat.mul_le_mul_right _ (Nat.succ_le_of_lt (not_le.mp hlt))
    rw [Nat.succ_mul] at hle
    have htie : 2 * n = (2 * 9007199254740991 + 1) * den := le_antisymm (by linarith) (by linarith)
    exact hlt (roundDiv_of_tie hd htie).ge

/-- A whole number has no double exactly from half a unit above the largest double on. -/
theorem toWord?_ofNat_eq_none_iff (n : Nat) : (ofNat n).toWord? = none ↔ overflowFrom ≤ n := by
  by_cases hz : n = 0
  · subst hz
    have : overflowFrom ≠ 0 := (Nat.zero_le _).trans_lt (pow_lt_overflowFrom (Nat.zero_le _)) |>.ne'
    simp [toWord?, ofNat, infinityWord, exponentUnit, this]
  have hnum : (ofNat n).num ≠ 0 := hz
  have hword : (ofNat n).toWord? = none ↔ infinityWord ≤ (ofNat n).nearestWord := by
    simp [toWord?, hnum]
  rw [hword]
  have hlow := Nat.log2_self_le hz
  have hhigh : n < 2 ^ (n.log2 + 1) := Nat.lt_log2_self
  by_cases hs : n.log2 < 52
  · have hw := nearestWord_ofNat_lt hz hs
    have := hhigh.trans (pow_lt_overflowFrom (by omega))
    omega
  have hl : 52 ≤ n.log2 := by omega
  rw [nearestWord_ofNat hz hl]
  rcases Nat.lt_trichotomy n.log2 1023 with h | h | h
  · have hw := roundDiv_lt_of_log2 hl
    have hc : (n.log2 + 1022) * exponentUnit ≤ 2044 * exponentUnit :=
      Nat.mul_le_mul_right _ (by omega)
    have := hhigh.trans (pow_lt_overflowFrom (by omega))
    simp only [infinityWord, exponentUnit] at *
    omega
  · have hr := pow_le_roundDiv_iff (n := n) (Nat.two_pow_pos _)
      (two_mul_overflowFrom (show n.log2 - 52 = 971 by omega))
    rw [← hr]
    generalize roundDiv n _ = q
    rw [h]
    simp only [infinityWord, exponentUnit]
    omega
  · have hw := pow_le_roundDiv_of_log2 hz hl
    have hc : 2046 * exponentUnit ≤ (n.log2 + 1022) * exponentUnit :=
      Nat.mul_le_mul_right _ (by omega)
    have := (overflowFrom_le_pow (by omega)).trans hlow
    simp only [infinityWord, exponentUnit] at *
    omega

end Fraction

theorem intToDouble?_eq_none_iff (n : Int) :
    intToDouble? n = none ↔ Fraction.overflowFrom ≤ n.natAbs := by
  rw [intToDouble?, Fraction.toDouble?, Option.map_eq_none_iff, Fraction.toWord?_ofNat_eq_none_iff]

end Reckoner

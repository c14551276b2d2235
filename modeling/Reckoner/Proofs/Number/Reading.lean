import Reckoner.Proofs.Number.Word
import Reckoner.Number.Numeral

/-!
# Reading decimals

The shortcuts of `Decimal.toWord?` are shown to be no more than that, so the word of a decimal
depends on its value alone, whatever its digits and its exponent are. The shortest decimal of
a double therefore reads back as the double, with or without zeros at its end.
-/

namespace Reckoner

/-! ## Numbers out of reach -/

namespace Fraction

theorem toWord?_of_large {f : Fraction} (h : (2 : ℚ) ^ (1024 : Int) ≤ f.rat) : f.toWord? = none := by
  have hpos : (0 : ℚ) < 2 ^ (1024 : Int) := by positivity
  have hnum : f.num ≠ 0 := by
    intro hz
    rw [rat_eq_zero_iff.mpr hz] at h
    exact absurd h hpos.not_ge
  obtain ⟨hl, hr⟩ := floorLog2_spec hnum
  have hlog : 1024 ≤ f.floorLog2 := by
    have := (zpow_lt_zpow_iff_right₀ (by norm_num : (1 : ℚ) < 2)).mp (h.trans_lt hr)
    omega
  have hround : 2 ^ 52 ≤ (f.scale 2 (-(f.floorLog2 - 52))).round := by
    have hscaled : ((2 ^ 52 : Nat) : ℚ) ≤ (f.scale 2 (-(f.floorLog2 - 52))).rat := by
      rw [rat_scale]
      calc ((2 ^ 52 : Nat) : ℚ) = 2 ^ f.floorLog2 * 2 ^ (-(f.floorLog2 - 52)) := by
            rw [← zpow_add₀ two_ne_zero]
            norm_num
        _ ≤ f.rat * 2 ^ (-(f.floorLog2 - 52)) := by gcongr
        _ = f.rat * ((2 : Nat) : ℚ) ^ (-(f.floorLog2 - 52)) := by norm_num
    generalize f.scale 2 (-(f.floorLog2 - 52)) = g at *
    have hd := g.den_pos
    have hle : 2 ^ 52 * g.den ≤ g.num := by
      rw [rat, le_div_iff₀ (by positivity)] at hscaled
      exact_mod_cast hscaled
    have htwo := (roundDiv_near g.num hd).2
    rw [round]
    by_contra hlt
    have : (roundDiv g.num g.den + 1) * g.den ≤ 2 ^ 52 * g.den := Nat.mul_le_mul_right _ (by omega)
    rw [Nat.succ_mul] at this
    omega
  have hexponent : max (f.floorLog2 - 52) leastExponent = f.floorLog2 - 52 := by
    simp only [leastExponent]
    omega
  have hshift : 2046 ≤ (f.floorLog2 - 52 - leastExponent).toNat := by
    simp only [leastExponent]
    omega
  have hword : infinityWord ≤ f.nearestWord := by
    rw [nearestWord]
    rw [hexponent]
    have := Nat.mul_le_mul_right exponentUnit hshift
    simp only [infinityWord, exponentUnit] at *
    omega
  simp only [toWord?, hnum, if_false, Nat.not_lt.mpr hword]

theorem toWord?_of_small {f : Fraction} (h : f.rat < (2 : ℚ) ^ (-1075 : Int)) :
    f.toWord? = some 0 := by
  by_cases hnum : f.num = 0
  · simp only [toWord?, hnum, if_true]
    rfl
  obtain ⟨hl, hr⟩ := floorLog2_spec hnum
  have hlog : f.floorLog2 < -1075 :=
    (zpow_lt_zpow_iff_right₀ (by norm_num : (1 : ℚ) < 2)).mp (hl.trans_lt h)
  have hexponent : max (f.floorLog2 - 52) leastExponent = leastExponent := by
    simp only [leastExponent]
    omega
  have hround : (f.scale 2 (-leastExponent)).round = 0 := by
    have hscaled : (f.scale 2 (-leastExponent)).rat < 1 / 2 := by
      rw [rat_scale]
      calc f.rat * ((2 : Nat) : ℚ) ^ (-leastExponent)
          < 2 ^ (-1075 : Int) * ((2 : Nat) : ℚ) ^ (-leastExponent) := by gcongr
        _ = 1 / 2 := by
            rw [Nat.cast_two, ← zpow_add₀ two_ne_zero, leastExponent]
            norm_num
    generalize f.scale 2 (-leastExponent) = g at *
    have hd := g.den_pos
    have hless : 2 * g.num < g.den := by
      rw [rat, div_lt_div_iff₀ (by positivity) two_pos] at hscaled
      have : (g.num : ℚ) * 2 < g.den := by linarith
      have : g.num * 2 < g.den := by exact_mod_cast this
      omega
    have htwo := (roundDiv_near g.num hd).1
    rw [round]
    by_contra hne
    have : 1 * g.den ≤ roundDiv g.num g.den * g.den :=
      Nat.mul_le_mul_right _ (Nat.pos_of_ne_zero hne)
    omega
  have hword : f.nearestWord = 0 := by
    rw [nearestWord]
    rw [hexponent, hround, sub_self]
    rfl
  simp only [toWord?, hnum, if_false, hword]
  rfl

theorem lt_pow_decimalSize (n : Nat) : n < 10 ^ decimalSize n := by
  fun_induction decimalSize n with
  | case1 n h => omega
  | case2 n h ih =>
    rw [Nat.pow_succ]
    omega

end Fraction

/-! ## Decimals by their value -/

namespace Decimal

theorem rat_toFraction (d : Decimal) : d.toFraction.rat = d.digits * (10 : ℚ) ^ d.exponent := by
  rw [toFraction, Fraction.rat_scale, Fraction.rat_ofNat]
  norm_num

theorem two_pow_le_ten_pow (n : Nat) : (2 : ℚ) ^ (3 * n) ≤ 10 ^ n := by
  rw [pow_mul]
  gcongr
  norm_num

/-- The exponents that `toWord?` looks at first are those where rounding has no choice. -/
theorem toWord?_eq (d : Decimal) : d.toWord? = d.toFraction.toWord? := by
  have hrat := d.rat_toFraction
  unfold toWord?
  split_ifs with hzero hlarge hsmall
  · have hnum : d.toFraction.num = 0 := by
      rw [← Fraction.rat_eq_zero_iff, hrat, hzero]
      simp
    simp only [Fraction.toWord?, hnum, if_true]
    rfl
  · refine (Fraction.toWord?_of_large ?_).symm
    obtain ⟨k, hk⟩ := Int.eq_ofNat_of_zero_le (show 0 ≤ d.exponent - 401 by rw [reach] at hlarge; omega)
    have hexponent : d.exponent = ((401 + k : Nat) : Int) := by omega
    have hdigits : (1 : ℚ) ≤ d.digits := by exact_mod_cast Nat.pos_of_ne_zero hzero
    rw [hrat, hexponent, zpow_natCast]
    calc (2 : ℚ) ^ (1024 : Int) = 2 ^ 1024 := zpow_ofNat 2 1024
      _ ≤ 2 ^ (3 * (401 + k)) := pow_le_pow_right₀ one_le_two (by omega)
      _ ≤ 10 ^ (401 + k) := two_pow_le_ten_pow _
      _ ≤ d.digits * 10 ^ (401 + k) := le_mul_of_one_le_left (by positivity) hdigits
  · refine (Fraction.toWord?_of_small ?_).symm
    obtain ⟨k, hk⟩ := Int.eq_ofNat_of_zero_le
      (show 0 ≤ -(d.exponent + Fraction.decimalSize d.digits) - 401 by rw [reach] at hsmall; omega)
    have hdigits : (d.digits : ℚ) < 10 ^ Fraction.decimalSize d.digits := by
      exact_mod_cast Fraction.lt_pow_decimalSize d.digits
    have hexponent : (Fraction.decimalSize d.digits : Int) + d.exponent = -((401 + k : Nat) : Int) := by
      omega
    rw [hrat]
    calc (d.digits : ℚ) * 10 ^ d.exponent
        < 10 ^ Fraction.decimalSize d.digits * 10 ^ d.exponent := by gcongr
      _ = (10 ^ (401 + k))⁻¹ := by
          rw [← zpow_natCast, ← zpow_add₀ (by norm_num), hexponent, zpow_neg, zpow_natCast]
      _ ≤ (2 ^ (3 * (401 + k)))⁻¹ := inv_anti₀ (by positivity) (two_pow_le_ten_pow _)
      _ ≤ (2 ^ (1075 : Nat))⁻¹ :=
          inv_anti₀ (by positivity) (pow_le_pow_right₀ one_le_two (by omega))
      _ = 2 ^ (-1075 : Int) := by
          rw [← zpow_natCast, ← zpow_neg]
          rfl
  · rfl

/-- The word of a decimal depends on its value alone. -/
theorem toWord?_congr {c d : Decimal} (h : c.toFraction.rat = d.toFraction.rat) :
    c.toWord? = d.toWord? := by
  rw [toWord?_eq, toWord?_eq, Fraction.toWord?_congr h]

theorem rat_trimmed (d : Decimal) : d.trimmed.toFraction.rat = d.toFraction.rat := by
  fun_induction trimmed d with
  | case1 d h ih =>
    rw [ih, rat_toFraction, rat_toFraction]
    have hdigits : (d.digits : ℚ) = (d.digits / 10 : Nat) * 10 := by
      exact_mod_cast (Nat.div_mul_cancel (Nat.dvd_of_mod_eq_zero h.2)).symm
    rw [hdigits, zpow_add₀ (by norm_num), zpow_one]
    ring
  | case2 d h => rfl

theorem rat_ofBinary (significand : Nat) (exponent : Int) :
    (ofBinary significand exponent).toFraction.rat =
      (Fraction.ofBinary significand exponent).rat := by
  rw [rat_toFraction, Fraction.rat_ofBinary, ofBinary]
  rcases Int.eq_nat_or_neg exponent with ⟨n, rfl | rfl⟩
  · simp
  · have h25 : (10 : ℚ) ^ n = 2 ^ n * 5 ^ n := by rw [← mul_pow]; norm_num
    have hmin : min (-(n : Int)) 0 = -(n : Int) := by omega
    simp only [hmin, neg_neg, Int.toNat_natCast, zpow_neg, zpow_natCast, Nat.pow_eq]
    rw [h25, show (-(n : Int)).toNat = 0 by omega]
    push_cast
    field_simp

/-- The shortest decimal of a number is read as the double nearest to that number. -/
theorem toWord?_shortest (significand : Nat) (exponent : Int) :
    (shortest significand exponent).toWord? =
      (Fraction.ofBinary significand exponent).toWord? := by
  have hexact : (ofBinary significand exponent).toWord? =
      (Fraction.ofBinary significand exponent).toWord? := by
    rw [toWord?_eq, Fraction.toWord?_congr (rat_ofBinary significand exponent)]
  unfold shortest
  dsimp only
  rw [toWord?_congr (rat_trimmed _)]
  generalize hfound : List.findSome? _ _ = found
  cases found with
  | none => exact hexact
  | some d =>
    obtain ⟨n, -, hn⟩ := List.exists_of_findSome?_eq_some hfound
    have := List.find?_some hn
    exact eq_of_beq this

end Decimal

end Reckoner

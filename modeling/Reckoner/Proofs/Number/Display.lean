import Reckoner.Proofs.Number.Literal
import Reckoner.Proofs.Number.Nearest
import Mathlib.Data.Sign.Basic

/-!
# Displayed numbers

A displayed number is a numeral with a sign before it, and it denotes a number near to the
one that the double stands for: the same where that is whole and not large, one at most half
a unit of the fifteenth place away where it is an ordinary fraction, and one at most half a
unit of the tenth digit away else. Main statement: `displayText_faithful`.
-/

namespace Reckoner

/-! ## Texts that show a number -/

/-- A text is a numeral of `q` that ends neither with the point nor with a zero after it. -/
structure IsShown (t : Text) (q : ℚ) : Prop where
  numeral : ∃ n, Numeral.ofText? t = some n ∧ n.value.toFraction.rat = q ∧
    n.fraction.getLast? ≠ some '0'
  point : t.getLast? ≠ some '.'

/-- A text shows `q` if it is such a numeral, with the sign of a negative number before it. -/
def Shows (t : Text) (q : ℚ) : Prop :=
  IsShown t q ∨ ∃ magnitude, t = '-' :: magnitude ∧ IsShown magnitude (-q)

theorem getLast?_of_isDigit {t digits : Text} (hne : digits ≠ [])
    (h : ∀ c ∈ digits, isDecimalDigit c = true) : (t ++ digits).getLast? ≠ some '.' := by
  intro hpoint
  rw [List.getLast?_append_of_ne_nil t hne] at hpoint
  have := h '.' (List.mem_of_getLast? hpoint)
  revert this
  decide

/-- The digits of a number that is no multiple of ten do not end with a zero. -/
theorem getLast?_natText {n : Nat} (h : n % 10 ≠ 0) : (natText n).getLast? ≠ some '0' := by
  intro hzero
  obtain ⟨front, hfront⟩ := List.getLast?_eq_some_iff.1 hzero
  have hdigits : ∀ c ∈ front, c.isDigit = true := fun c hc =>
    isDigit_natText (n := n) c (by rw [hfront]; exact List.mem_append_left _ hc)
  have hvalue : digitsValue (natText n) = digitsValue front * 10 ^ 1 := by
    rw [hfront]
    exact digitsValue_append_zeros hdigits 1
  rw [digitsValue_natText] at hvalue
  omega

namespace Decimal

/-- The numeral of a whole number without a point. -/
def plainNumeral (d : Decimal) : Numeral where
  whole := natText d.digits ++ zeros d.exponent.toNat
  fraction := []
  exponent := []

theorem regular_plainNumeral (d : Decimal) : d.plainNumeral.Regular where
  whole c hc := isDecimalDigit_of_isDigit (d.isDigit_whole c hc)
  fraction := .inl rfl
  nonempty := .inl (by simp [plainNumeral, natText_ne_nil])
  exponent := .inl rfl

theorem rat_plainNumeral {d : Decimal} (h : 0 ≤ d.exponent) :
    d.plainNumeral.value.toFraction.rat = d.toFraction.rat := by
  have hvalue : d.plainNumeral.value =
      { digits := d.digits * 10 ^ d.exponent.toNat, exponent := 0 } := by
    have hdigits := digitsValue_append_zeros (isDigit_natText (n := d.digits)) d.exponent.toNat
    rw [digitsValue_natText] at hdigits
    rw [← hdigits]
    simp [Numeral.value, plainNumeral, Numeral.exponentValue]
  have hexponent : (10 : ℚ) ^ d.exponent = 10 ^ d.exponent.toNat := by
    rw [← zpow_natCast, Int.toNat_of_nonneg h]
  rw [hvalue, rat_toFraction, rat_toFraction, hexponent]
  push_cast
  ring

theorem isShown_of_whole {d : Decimal} (h : 0 ≤ d.exponent) :
    IsShown d.positional d.toFraction.rat := by
  have htext : d.positional = d.plainNumeral.text := by
    rw [positional, if_pos h]
    simp [plainNumeral, Numeral.text]
  refine ⟨⟨d.plainNumeral, ?_, rat_plainNumeral h, by simp [plainNumeral]⟩, ?_⟩
  · rw [htext]
    exact ofText?_of_regular d.regular_plainNumeral
  · rw [positional, if_pos h, ← List.nil_append (_ ++ _)]
    exact getLast?_of_isDigit (by simp [natText_ne_nil]) fun c hc =>
      isDecimalDigit_of_isDigit (d.isDigit_whole c hc)

/-- A written number keeps its last digit, so it does not end with a zero if its digits do not. -/
theorem isShown_positional {d : Decimal} (h : d.digits % 10 ≠ 0) :
    IsShown d.positional d.toFraction.rat := by
  by_cases hwhole : 0 ≤ d.exponent
  · exact isShown_of_whole hwhole
  have htext : d.positional = d.placesNumeral.text := by
    rw [positional, if_neg hwhole]
    simp [placesNumeral, Numeral.text, padded]
  have hlength := d.lt_length_padded
  -- at least one place stands after the point
  have hplaces : d.padded.drop (d.padded.length - (-d.exponent).toNat) ≠ [] := by
    rw [ne_eq, List.drop_eq_nil_iff]
    omega
  have hlast : (d.padded.drop (d.padded.length - (-d.exponent).toNat)).getLast? =
      (natText d.digits).getLast? := by
    rw [List.getLast?_drop, if_neg (by omega), padded,
      List.getLast?_append_of_ne_nil _ (natText_ne_nil _)]
  refine ⟨⟨d.placesNumeral, ?_, by rw [value_placesNumeral (not_le.1 hwhole)], ?_⟩, ?_⟩
  · rw [htext]
    exact ofText?_of_regular d.regular_placesNumeral
  · rw [placesNumeral, ← List.singleton_append, List.getLast?_append_of_ne_nil _ hplaces, hlast]
    exact getLast?_natText h
  · have hsplit : d.positional =
        (d.placesNumeral.whole ++ ['.']) ++
          d.padded.drop (d.padded.length - (-d.exponent).toNat) := by
      rw [htext]
      simp [placesNumeral, Numeral.text]
    rw [hsplit]
    exact getLast?_of_isDigit hplaces fun c hc =>
      isDecimalDigit_of_isDigit (d.isDigit_padded c (List.mem_of_mem_drop hc))

end Decimal

/-- A regular numeral may have its exponent marked by the other letter. -/
theorem ofText?_of_regular_marked {n : Numeral} (hn : n.Regular) {rest : Text}
    (h : n.exponent = 'E' :: rest) :
    Numeral.ofText? (n.whole ++ n.fraction ++ 'e' :: rest) =
      some { n with exponent := 'e' :: rest } := by
  have hrest : IsExponent rest := by
    obtain he | ⟨other, he, hother⟩ := hn.exponent
    · rw [h] at he
      cases he
    · rw [h] at he
      cases he
      exact hother
  have hsignificand : Numeral.scanSignificand (n.whole ++ n.fraction ++ 'e' :: rest) =
      some (n.whole, n.fraction, 'e' :: rest) :=
    scanSignificand_append_of_regular hn fun c hc => by
      cases hc
      exact ⟨by decide, fun _ => by decide⟩
  have hexponent : Numeral.scanExponent (fun c => c == 'e' || c == 'E') ('e' :: rest ++ []) =
      ('e' :: rest, []) :=
    scanExponent_append_of_isExponent rfl hrest fun _ hc => nomatch hc
  rw [List.append_nil] at hexponent
  rw [Numeral.ofText?, Numeral.scan, hsignificand, Option.map_some]
  dsimp only
  rw [hexponent]

namespace Decimal

theorem isShown_scientific {d : Decimal} (h : d.digits % 10 ≠ 0) :
    IsShown d.scientific d.toFraction.rat := by
  have htext : d.scientific =
      d.scientificNumeral.whole ++ d.scientificNumeral.fraction ++ 'e' :: d.exponentText := by
    obtain ⟨first, rest, hfirst⟩ := List.exists_cons_of_ne_nil (natText_ne_nil d.digits)
    unfold scientific scientificNumeral exponentText
    dsimp only
    rw [hfirst]
    by_cases hempty : rest = [] <;> simp [hempty]
  refine ⟨⟨{ d.scientificNumeral with exponent := 'e' :: d.exponentText }, ?_, ?_, ?_⟩, ?_⟩
  · rw [htext]
    exact ofText?_of_regular_marked d.regular_scientificNumeral rfl
  · have hexponent : ({ d.scientificNumeral with exponent := 'e' :: d.exponentText } :
        Numeral).exponentValue = d.scientificNumeral.exponentValue := by
      unfold Numeral.exponentValue scientificNumeral exponentText
      dsimp only
      split_ifs <;> rfl
    rw [Numeral.value, hexponent]
    exact congrArg (fun value => value.toFraction.rat) (value_scientificNumeral d)
  · change d.scientificNumeral.fraction.getLast? ≠ _
    rw [scientificNumeral]
    dsimp only
    split_ifs with hempty
    · simp
    · rw [← List.singleton_append, List.getLast?_append_of_ne_nil _ hempty]
      have hdigits := List.cons_head_tail (natText_ne_nil d.digits)
      have hlast := getLast?_natText h
      rw [← hdigits, ← List.singleton_append, List.getLast?_append_of_ne_nil _ hempty] at hlast
      exact hlast
  · obtain ⟨sign, digits, hexponent, -, hne, hdigits⟩ := d.isExponent_exponentText
    rw [htext, hexponent, ← List.cons_append, ← List.append_assoc]
    exact getLast?_of_isDigit hne hdigits

theorem isShown_write {layout : Layout} (hlayout : layout.keepsPoint = false) {d : Decimal}
    (h : d.digits % 10 ≠ 0) : IsShown (layout.write d) d.toFraction.rat := by
  unfold Layout.write
  dsimp only
  rw [hlayout]
  split_ifs with hplain hpoint
  · exact hpoint.1.elim
  · exact isShown_positional h
  · exact isShown_scientific h

/-- A trimmed number that is not zero does not end with a zero. -/
theorem digits_trimmed_mod {d : Decimal} (h : d.digits ≠ 0) : d.trimmed.digits % 10 ≠ 0 := by
  fun_induction trimmed d with
  | case1 d hzero ih => exact ih (by dsimp only; omega)
  | case2 d hend => exact fun hmod => hend ⟨h, hmod⟩

end Decimal

/-! ## How near the shown number is -/

namespace Fraction

theorem isLess_iff {f g : Fraction} : f.isLess g = true ↔ f.rat < g.rat := by
  have hf : (0 : ℚ) < f.den := by exact_mod_cast f.den_pos
  have hg : (0 : ℚ) < g.den := by exact_mod_cast g.den_pos
  rw [isLess, decide_eq_true_eq, rat, rat, div_lt_div_iff₀ hf hg]
  exact_mod_cast Iff.rfl

theorem isWhole_iff {f : Fraction} : f.isWhole = true ↔ f.rat = f.floor := by
  rw [isWhole, beq_iff_eq, rat, div_eq_iff f.den_ne_zero, floor]
  have hdiv := Nat.div_add_mod' f.num f.den
  constructor
  · intro h
    rw [h, Nat.add_zero] at hdiv
    exact_mod_cast hdiv.symm
  · intro h
    have : f.num = f.num / f.den * f.den := by exact_mod_cast h
    omega

theorem isWhole_of_rat_eq {f : Fraction} {n : Int} (h : f.rat = n) : f.isWhole = true := by
  rw [isWhole, beq_iff_eq]
  have hnum : (f.num : Int) = n * f.den := by
    rw [rat, div_eq_iff f.den_ne_zero] at h
    exact_mod_cast h
  exact Nat.mod_eq_zero_of_dvd (Int.natCast_dvd_natCast.1 ⟨n, by rw [hnum, mul_comm]⟩)

theorem rat_nonneg (f : Fraction) : 0 ≤ f.rat := by
  rw [rat]
  positivity

theorem decimalSize_pos (n : Nat) : 0 < decimalSize n := by
  unfold decimalSize
  split_ifs <;> omega

theorem pow_decimalSize_sub_one_le {n : Nat} (h : 0 < n) : 10 ^ (decimalSize n - 1) ≤ n := by
  fun_induction decimalSize n with
  | case1 n hsmall => exact h
  | case2 n hlarge ih =>
    have hrest := ih (by omega)
    have hsize := decimalSize_pos (n / 10)
    calc 10 ^ (decimalSize (n / 10) + 1 - 1) = 10 ^ (decimalSize (n / 10) - 1) * 10 := by
          rw [← Nat.pow_succ]
          congr 1
          omega
      _ ≤ n := by omega

/-- A positive fraction is not below the power of ten of its first digit. -/
theorem pow_floorLog10_le {f : Fraction} (h : f.num ≠ 0) : (10 : ℚ) ^ f.floorLog10 ≤ f.rat := by
  have hden := f.den_pos
  have hdenq : (0 : ℚ) < f.den := by positivity
  unfold floorLog10 floorLog rat
  by_cases hle : f.den ≤ f.num
  · have hquotient : 0 < f.num / f.den := Nat.div_pos hle hden
    have hlow : 10 ^ (decimalSize (f.num / f.den) - 1) * f.den ≤ f.num :=
      (Nat.le_div_iff_mul_le hden).1 (pow_decimalSize_sub_one_le hquotient)
    have hsize := decimalSize_pos (f.num / f.den)
    have hexponent : (decimalSize (f.num / f.den) : Int) - 1 =
        ((decimalSize (f.num / f.den) - 1 : Nat) : Int) := by omega
    rw [if_pos hle, hexponent, zpow_natCast, le_div_iff₀ hdenq]
    exact_mod_cast hlow
  · have hnum : 0 < f.num := Nat.pos_of_ne_zero h
    have hhigh : f.den - 1 < 10 ^ decimalSize ((f.den - 1) / f.num) * f.num :=
      (Nat.div_lt_iff_lt_mul hnum).1 (lt_pow_decimalSize _)
    have hbound : f.den ≤ 10 ^ decimalSize ((f.den - 1) / f.num) * f.num := by omega
    have hpow : (0 : ℚ) < 10 ^ decimalSize ((f.den - 1) / f.num) := by positivity
    rw [if_neg hle, zpow_neg, zpow_natCast, le_div_iff₀ hdenq, inv_mul_le_iff₀ hpow]
    exact_mod_cast hbound

end Fraction

/-- A number is rounded to a place by half a unit of that place at most. -/
theorem Decimal.abs_rat_nearest_sub_le (f : Fraction) (place : Int) :
    |(Decimal.nearest f place).toFraction.rat - f.rat| ≤ (10 : ℚ) ^ place / 2 := by
  have hpow : (0 : ℚ) < 10 ^ place := by positivity
  have hhalf := (f.scale 10 (-place)).nearestTo_round.half
  rw [Fraction.rat_scale] at hhalf
  have hscale : f.rat = f.rat * ((10 : ℕ) : ℚ) ^ (-place) * 10 ^ place := by
    rw [mul_assoc, Nat.cast_ofNat, ← zpow_add₀ (by norm_num), neg_add_cancel, zpow_zero, mul_one]
  rw [Decimal.rat_toFraction, abs_sub_comm]
  calc |f.rat - (Decimal.nearest f place).digits * 10 ^ place|
      = |f.rat * ((10 : ℕ) : ℚ) ^ (-place) - ((f.scale 10 (-place)).round : Int)| * 10 ^ place := by
        rw [← abs_of_pos hpow, ← abs_mul, sub_mul, abs_of_pos hpow, ← hscale]
        rfl
    _ ≤ 1 / 2 * 10 ^ place := mul_le_mul_of_nonneg_right hhalf hpow.le
    _ = 10 ^ place / 2 := by ring

/-- What a display of `v` may denote. The bounds are those of numbers of three kinds: whole ones
that are not large, other fractions between a millionth and `10 ^ 15`, and the rest. -/
structure Faithful (v D : ℚ) : Prop where
  whole : (∃ n : Int, v = n) → |v| < 10 ^ 15 → D = v
  places : (¬∃ n : Int, v = n) → 1 / 10 ^ 6 ≤ |v| → |v| < 10 ^ 15 → |D - v| ≤ 1 / 10 ^ 15 / 2
  precision : 10 ^ 15 ≤ |v| ∨ (¬∃ n : Int, v = n) ∧ |v| < 1 / 10 ^ 6 → |D - v| ≤ |v| / 10 ^ 9 / 2
  sign : SignType.sign D = SignType.sign v

namespace Faithful

variable {v D : ℚ}

theorem refl (v : ℚ) : Faithful v v where
  whole _ _ := rfl
  places _ _ _ := by
    rw [sub_self, abs_zero]
    positivity
  precision _ := by
    rw [sub_self, abs_zero]
    positivity
  sign := rfl

theorem neg (h : Faithful v D) : Faithful (-v) (-D) := by
  have hwhole : (∃ n : Int, -v = n) ↔ ∃ n : Int, v = n :=
    ⟨fun ⟨n, hn⟩ => ⟨-n, by push_cast; linarith⟩, fun ⟨n, hn⟩ => ⟨-n, by push_cast; linarith⟩⟩
  have herror : |-D - -v| = |D - v| := by rw [neg_sub_neg, abs_sub_comm]
  refine ⟨?_, ?_, ?_, ?_⟩
  · rw [hwhole, abs_neg, neg_inj]
    exact h.whole
  · rw [hwhole, abs_neg, herror]
    exact h.places
  · rw [hwhole, abs_neg, herror]
    exact h.precision
  · rw [Left.sign_neg, Left.sign_neg, h.sign]

/-- A number that is near enough to a positive one is positive. -/
theorem pos_of_near {ε : ℚ} (hnear : |D - v| ≤ ε) (hv : ε < v) : 0 < D := by
  have := (abs_le.1 hnear).1
  linarith

end Faithful

/-- The least number that is shown in places is less than a millionth. -/
theorem rat_smallBelow : smallBelow.rat = 4722366482869645 / 2 ^ 72 := by
  rw [smallBelow, Fraction.rat_ofBinary, zpow_neg]
  norm_num

theorem rat_largeFrom : largeFrom.rat = 10 ^ 15 := by
  rw [largeFrom, Fraction.rat_ofNat]
  norm_num

theorem isLess_largeFrom {f : Fraction} : f.isLess largeFrom = true ↔ f.rat < 10 ^ 15 := by
  rw [Fraction.isLess_iff, rat_largeFrom]

theorem isLess_smallBelow {f : Fraction} :
    f.isLess smallBelow = false ↔ smallBelow.rat ≤ f.rat := by
  rw [← Bool.not_eq_true, Fraction.isLess_iff, not_lt]

/-- Rounding to places is exact between the double nearest to a millionth and the millionth
itself, so near to that is the double. -/
theorem rat_nearest_millionth {f : Fraction} (hlow : smallBelow.rat ≤ f.rat)
    (hhigh : f.rat < 1 / 10 ^ 6) :
    (Decimal.nearest f (-(displayPlaces : Int))).toFraction.rat = 1 / 10 ^ 6 := by
  have hnear := Decimal.abs_rat_nearest_sub_le f (-(displayPlaces : Int))
  rw [rat_smallBelow] at hlow
  rw [Decimal.rat_toFraction] at hnear ⊢
  generalize (Decimal.nearest f (-(displayPlaces : Int))).digits = digits at hnear ⊢
  change |(digits : ℚ) * 10 ^ (-15 : Int) - f.rat| ≤ 10 ^ (-15 : Int) / 2 at hnear
  change (digits : ℚ) * 10 ^ (-15 : Int) = 1 / 10 ^ 6
  norm_num at hnear hlow hhigh ⊢
  obtain ⟨hdown, hup⟩ := abs_le.1 hnear
  have hdigits : digits = 10 ^ 9 := by
    have hbelow : (digits : ℚ) < (10 ^ 9 + 1 : Nat) := by
      push_cast
      linarith
    have habove : ((10 ^ 9 : Nat) : ℚ) < (digits + 1 : Nat) := by
      push_cast
      linarith
    have := Nat.cast_lt.1 hbelow
    have := Nat.cast_lt.1 habove
    omega
  rw [hdigits]
  norm_num

section

variable {f : Fraction}

/-- A fraction shown in places is at most half a unit of the last one away. -/
theorem faithful_places (hwhole : f.isWhole = false) (hlarge : f.rat < 10 ^ 15)
    (hsmall : smallBelow.rat ≤ f.rat) :
    Faithful f.rat (Decimal.nearest f (-(displayPlaces : Int))).toFraction.rat := by
  have habs : |f.rat| = f.rat := abs_of_nonneg f.rat_nonneg
  have hnear := Decimal.abs_rat_nearest_sub_le f (-(displayPlaces : Int))
  have hunit : (10 : ℚ) ^ (-(displayPlaces : Int)) = 1 / 10 ^ 15 := by
    rw [displayPlaces, zpow_neg]
    norm_num
  have hbound := hsmall
  rw [rat_smallBelow] at hbound
  rw [hunit] at hnear
  refine ⟨fun ⟨n, hn⟩ => ?_, fun _ _ _ => hnear, fun hcase => ?_, ?_⟩
  · rw [Fraction.isWhole_of_rat_eq hn] at hwhole
    contradiction
  · rw [habs] at hcase ⊢
    obtain hcase | ⟨-, hmillionth⟩ := hcase
    · exact absurd hlarge (not_lt.2 hcase)
    · rw [rat_nearest_millionth hsmall hmillionth, abs_of_nonneg (by linarith)]
      norm_num at hbound hmillionth ⊢
      linarith
  · have hpos : 0 < f.rat := by
      norm_num at hbound
      linarith
    have hshown := Faithful.pos_of_near hnear (by norm_num at hbound ⊢; linarith)
    rw [sign_pos hpos, sign_pos hshown]

/-- A number of ten digits is at most half a unit of the last one away. -/
theorem abs_rat_toPrecision_sub_le (hpos : 0 < f.rat) :
    |(Decimal.nearest f (f.floorLog10 - 9)).toFraction.rat - f.rat| ≤ f.rat / 10 ^ 9 / 2 := by
  have hnum : f.num ≠ 0 := fun hzero => hpos.ne' (Fraction.rat_eq_zero_iff.2 hzero)
  have hfirst := Fraction.pow_floorLog10_le hnum
  calc |(Decimal.nearest f (f.floorLog10 - 9)).toFraction.rat - f.rat|
      ≤ (10 : ℚ) ^ (f.floorLog10 - 9) / 2 := Decimal.abs_rat_nearest_sub_le f _
    _ = (10 : ℚ) ^ f.floorLog10 / 10 ^ 9 / 2 := by
        rw [zpow_sub₀ (by norm_num)]
        norm_num
    _ ≤ f.rat / 10 ^ 9 / 2 := by gcongr

/-- What is shown neither as a whole number nor in places is large or a small fraction. -/
theorem large_or_small (hwhole : ¬(f.isLess largeFrom && f.isWhole) = true)
    (hplaces : ¬(f.isLess largeFrom && !f.isLess smallBelow) = true) :
    10 ^ 15 ≤ f.rat ∨ f.isWhole = false ∧ f.rat < smallBelow.rat := by
  by_cases hless : f.isLess largeFrom = true
  · rw [hless, Bool.true_and] at hwhole hplaces
    refine .inr ⟨Bool.eq_false_iff.2 hwhole, not_le.1 fun hle => hplaces ?_⟩
    rw [isLess_smallBelow.2 hle, Bool.not_false]
  · rw [isLess_largeFrom] at hless
    exact .inl (not_lt.1 hless)

theorem rat_pos_of_large_or_small
    (hcase : 10 ^ 15 ≤ f.rat ∨ f.isWhole = false ∧ f.rat < smallBelow.rat) : 0 < f.rat := by
  refine lt_of_le_of_ne f.rat_nonneg fun hzero => ?_
  obtain hcase | ⟨hfraction, -⟩ := hcase
  · rw [← hzero] at hcase
    norm_num at hcase
  · rw [Fraction.isWhole_of_rat_eq (hzero.symm.trans Int.cast_zero.symm)] at hfraction
    contradiction

theorem faithful_precision
    (hcase : 10 ^ 15 ≤ f.rat ∨ f.isWhole = false ∧ f.rat < smallBelow.rat) :
    Faithful f.rat (Decimal.nearest f (f.floorLog10 - 9)).toFraction.rat := by
  have hpos := rat_pos_of_large_or_small hcase
  have habs : |f.rat| = f.rat := abs_of_pos hpos
  have hnear := abs_rat_toPrecision_sub_le hpos
  have hmillionth : smallBelow.rat < 1 / 10 ^ 6 := by
    rw [rat_smallBelow]
    norm_num
  refine ⟨fun ⟨n, hn⟩ hlarge => ?_, fun _ hlow hlarge => ?_, fun _ => ?_, ?_⟩
  · rw [habs] at hlarge
    obtain hcase | ⟨hwhole, -⟩ := hcase
    · exact absurd hlarge (not_lt.2 hcase)
    · rw [Fraction.isWhole_of_rat_eq hn] at hwhole
      contradiction
  · rw [habs] at hlow hlarge
    obtain hcase | ⟨-, hsmall⟩ := hcase
    · exact absurd hlarge (not_lt.2 hcase)
    · exact absurd (hsmall.trans hmillionth) (not_lt.2 hlow)
  · rw [habs]
    exact hnear
  · have hshown := Faithful.pos_of_near hnear (by norm_num; linarith)
    rw [sign_pos hpos, sign_pos hshown]

end

/-! ## The display -/

theorem isShown_natText (n : Nat) : IsShown (natText n) n := by
  have h := Decimal.isShown_of_whole (d := { digits := n, exponent := 0 }) le_rfl
  have htext : ({ digits := n, exponent := 0 } : Decimal).positional = natText n := by
    rw [Decimal.positional, if_pos le_rfl]
    exact List.append_nil _
  rw [htext, Decimal.rat_toFraction, zpow_zero, mul_one] at h
  exact h

theorem IsShown.shows {t : Text} {q : ℚ} (h : IsShown t q) (negative : Bool) :
    Shows ((if negative then ['-'] else []) ++ t) ((if negative then -1 else 1) * q) := by
  cases negative with
  | false =>
    rw [if_neg Bool.false_ne_true, if_neg Bool.false_ne_true, one_mul]
    exact .inl h
  | true =>
    rw [if_pos rfl, if_pos rfl, neg_one_mul]
    exact .inr ⟨t, rfl, by rwa [neg_neg]⟩

/-- A whole number has its sign, save that zero has none. -/
theorem shows_intText (negative : Bool) (n : Nat) :
    Shows (intText (signedInt negative n)) ((if negative then -1 else 1) * (n : ℚ)) := by
  cases negative with
  | false =>
    have htext : intText (signedInt false n) = natText n := if_neg (by simp [signedInt])
    rw [htext]
    exact (isShown_natText n).shows false
  | true =>
    obtain rfl | hpos := Nat.eq_zero_or_pos n
    · rw [Nat.cast_zero, mul_zero]
      exact .inl (by exact_mod_cast isShown_natText 0)
    · have htext : intText (signedInt true n) = '-' :: natText n := by
        rw [signedInt, if_pos rfl, intText, if_pos (by omega), Int.natAbs_neg, Int.natAbs_natCast]
      rw [htext]
      exact (isShown_natText n).shows true

theorem Faithful.signed {v D : ℚ} (h : Faithful v D) (negative : Bool) :
    Faithful ((if negative then -1 else 1) * v) ((if negative then -1 else 1) * D) := by
  cases negative with
  | false => simpa using h
  | true => simpa using h.neg

/-- What is shown for a positive number is not zero. -/
theorem digits_ne_zero_of_faithful {v : ℚ} {d : Decimal} (hv : 0 < v)
    (h : Faithful v d.toFraction.rat) : d.digits ≠ 0 := by
  intro hzero
  have hsign := h.sign
  rw [sign_pos hv, Decimal.rat_toFraction, hzero, Nat.cast_zero, zero_mul, sign_zero] at hsign
  contradiction

/-- What is near to a positive number is shown, with its sign, by its digits without the zeros at
the end of them. -/
theorem exists_shows_trimmed {v : ℚ} {d : Decimal} {t : Text} (hv : 0 < v)
    (hfaithful : Faithful v d.toFraction.rat)
    (ht : d.trimmed.digits % 10 ≠ 0 → IsShown t d.trimmed.toFraction.rat) (negative : Bool) :
    ∃ D, Shows ((if negative then ['-'] else []) ++ t) D ∧
      Faithful ((if negative then -1 else 1) * v) D := by
  have hshown := ht (Decimal.digits_trimmed_mod (digits_ne_zero_of_faithful hv hfaithful))
  rw [Decimal.rat_trimmed] at hshown
  exact ⟨_, hshown.shows negative, hfaithful.signed negative⟩

/-- **Displayed numbers are faithful.** A finite double is displayed as a numeral with its sign,
and what that denotes is the very number of the double if it is whole and less than `10 ^ 15`.
It is within half a unit of the fifteenth place if the number is a fraction from a millionth to
`10 ^ 15`, and within half a unit of the tenth digit in all other cases. It has the sign of the
double's number, and is zero only for zero. The text never ends with the point, nor the places
after it with a zero. -/
theorem displayText_faithful {x : Float} (hx : x.isFinite = true) :
    ∃ v D, exactly? x = some v ∧ Shows (displayText x) D ∧ Faithful v D := by
  obtain ⟨negative, m, e, hdenote⟩ := isFinite_iff.1 hx
  have hexact : exactly? x =
      some ((if negative then -1 else 1) * (Fraction.ofBinary m e).rat) := by
    rw [exactly?, hdenote, Fraction.rat_ofBinary]
  rw [displayText, hdenote]
  dsimp only
  generalize Fraction.ofBinary m e = f at hexact ⊢
  suffices h : ∃ D, Shows _ D ∧ Faithful ((if negative then -1 else 1) * f.rat) D by
    obtain ⟨D, hshows, hfaithful⟩ := h
    exact ⟨_, D, hexact, hshows, hfaithful⟩
  by_cases hwhole : (f.isLess largeFrom && f.isWhole) = true
  · rw [if_pos hwhole]
    rw [Bool.and_eq_true, Fraction.isWhole_iff] at hwhole
    refine ⟨_, shows_intText negative f.floor, ?_⟩
    rw [← hwhole.2]
    exact .refl _
  rw [if_neg hwhole]
  by_cases hplaces : (f.isLess largeFrom && !f.isLess smallBelow) = true
  · rw [if_pos hplaces]
    rw [Bool.and_eq_true, Bool.not_eq_true', isLess_smallBelow] at hplaces
    have hfraction : f.isWhole = false := by simpa [hplaces.1] using hwhole
    have hpos : 0 < f.rat := lt_of_lt_of_le (by rw [rat_smallBelow]; norm_num) hplaces.2
    exact exists_shows_trimmed hpos
      (faithful_places hfraction (isLess_largeFrom.1 hplaces.1) hplaces.2)
      Decimal.isShown_positional negative
  · rw [if_neg hplaces]
    have hcase := large_or_small hwhole hplaces
    exact exists_shows_trimmed (rat_pos_of_large_or_small hcase) (faithful_precision hcase)
      (Decimal.isShown_write rfl) negative

/-- The double nearest to a millionth, which is less than that, is shown as the millionth. -/
theorem displayText_faithful_millionth :
    (1e-6 : Float).isFinite = true ∧ displayText 1e-6 = "0.000001".toList ∧
      ∃ v D, exactly? 1e-6 = some v ∧ Shows "0.000001".toList D ∧ Faithful v D := by
  have hfinite : (1e-6 : Float).isFinite = true := by decide
  have hdenote : denote 1e-6 = .finite false 4722366482869645 (-72) := by decide +kernel
  have hnearest : Decimal.nearest (.ofBinary 4722366482869645 (-72)) (-15) =
      { digits := 1000000000, exponent := -15 } := by decide +kernel
  have htrimmed : Decimal.trimmed { digits := 1000000000, exponent := -15 } =
      { digits := 1, exponent := -6 } := by simp [Decimal.trimmed]
  have htext : displayText 1e-6 = "0.000001".toList := by
    rw [displayText, hdenote]
    change _ ++ (Decimal.nearest (.ofBinary 4722366482869645 (-72)) (-15)).trimmed.positional = _
    rw [hnearest, htrimmed]
    decide +kernel
  obtain ⟨v, D, hv, hshows, hfaithful⟩ := displayText_faithful hfinite
  exact ⟨hfinite, htext, v, D, hv, htext ▸ hshows, hfaithful⟩

end Reckoner

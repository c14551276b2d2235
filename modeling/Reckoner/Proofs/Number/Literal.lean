import Reckoner.Proofs.Number.Reading
import Reckoner.Proofs.Number.Spelling

/-!
# Written-back numbers read back

The text that stands for the value of a group is a regular numeral, after a `_` if the value
is negative, and it is read as the very double it was made from, the sign of zero included
(`exists_numeral_of_isFinite`).
-/

namespace Reckoner

/-! ## Capitals -/

theorem toUpper_of_isDigit {c : Char} (h : c.isDigit = true) : c.toUpper = c := by
  obtain ⟨hl, hr⟩ := Char.isDigit_iff_toNat.mp h
  change 48 ≤ c.val.toNat at hl
  change c.val.toNat ≤ 57 at hr
  unfold Char.toUpper
  rw [dif_neg]
  rintro ⟨hlow, -⟩
  rw [UInt32.le_iff_toNat_le] at hlow
  change 97 ≤ c.val.toNat at hlow
  omega

theorem upperLatin_of_forall {t : Text} (h : ∀ c ∈ t, c.isDigit = true ∨ c = '.') :
    upperLatin t = t := by
  have hmap : t.map Char.toUpper = t.map id := by
    refine List.map_congr_left fun c hc => ?_
    rcases h c hc with hc | rfl
    · exact toUpper_of_isDigit hc
    · rfl
  rw [upperLatin, hmap, List.map_id]

theorem upperLatin_of_isDigit {t : Text} (h : ∀ c ∈ t, c.isDigit = true) : upperLatin t = t :=
  upperLatin_of_forall fun c hc => .inl (h c hc)

theorem upperLatin_append (s t : Text) : upperLatin (s ++ t) = upperLatin s ++ upperLatin t :=
  List.map_append

/-! ## The numeral that a decimal is written as -/

theorem natText_ne_nil (n : Nat) : natText n ≠ [] := Nat.toDigits_ne_nil

theorem isDecimalDigit_natText {n : Nat} : ∀ c ∈ natText n, isDecimalDigit c = true :=
  fun c hc => isDecimalDigit_of_isDigit (isDigit_natText c hc)

namespace Decimal

/-- All digits of a number with places after the point, and at least one before it. -/
def padded (d : Decimal) : Text :=
  zeros ((-d.exponent).toNat + 1 - (natText d.digits).length) ++ natText d.digits

/-- What `scientific` writes after the exponent mark. -/
def exponentText (d : Decimal) : Text :=
  (if d.leadingExponent < 0 then '-' else '+') ::
    (zeros (2 - (natText d.leadingExponent.natAbs).length) ++ natText d.leadingExponent.natAbs)

/-- The numeral of a whole number. -/
def wholeNumeral (d : Decimal) : Numeral where
  whole := natText d.digits ++ zeros d.exponent.toNat
  fraction := ['.', '0']
  exponent := []

/-- The numeral of a number with places after the point. -/
def placesNumeral (d : Decimal) : Numeral where
  whole := d.padded.take (d.padded.length - (-d.exponent).toNat)
  fraction := '.' :: d.padded.drop (d.padded.length - (-d.exponent).toNat)
  exponent := []

/-- The numeral of a number in scientific form. -/
def scientificNumeral (d : Decimal) : Numeral where
  whole := (natText d.digits).take 1
  fraction := if (natText d.digits).tail = [] then [] else '.' :: (natText d.digits).tail
  exponent := 'E' :: d.exponentText

/-- The numeral that stands for a decimal. -/
def numeral (d : Decimal) : Numeral :=
  if -4 ≤ d.leadingExponent ∧ d.leadingExponent < 16 then
    if 0 ≤ d.exponent then d.wholeNumeral else d.placesNumeral
  else d.scientificNumeral

theorem isDigit_whole (d : Decimal) :
    ∀ c ∈ natText d.digits ++ zeros d.exponent.toNat, c.isDigit = true := by
  intro c hc
  rcases List.mem_append.mp hc with hc | hc
  · exact isDigit_natText c hc
  · exact isDigit_zeros c hc

theorem isDigit_padded (d : Decimal) : ∀ c ∈ d.padded, c.isDigit = true := by
  intro c hc
  rcases List.mem_append.mp hc with hc | hc
  · exact isDigit_zeros c hc
  · exact isDigit_natText c hc

theorem lt_length_padded (d : Decimal) : (-d.exponent).toNat < d.padded.length := by
  simp only [padded, zeros, List.length_append, List.length_replicate]
  omega

/-! ### It is regular -/

theorem regular_wholeNumeral (d : Decimal) : d.wholeNumeral.Regular where
  whole c hc := isDecimalDigit_of_isDigit (d.isDigit_whole c hc)
  fraction := .inr ⟨['0'], rfl, by decide⟩
  nonempty := .inr Nat.one_lt_two
  exponent := .inl rfl

theorem regular_placesNumeral (d : Decimal) : d.placesNumeral.Regular where
  whole c hc := isDecimalDigit_of_isDigit (d.isDigit_padded c (List.mem_of_mem_take hc))
  fraction := .inr ⟨_, rfl, fun c hc =>
    isDecimalDigit_of_isDigit (d.isDigit_padded c (List.mem_of_mem_drop hc))⟩
  nonempty := by
    left
    have hlength := d.lt_length_padded
    refine List.ne_nil_of_length_pos ?_
    rw [placesNumeral, List.length_take]
    omega
  exponent := .inl rfl

theorem isExponent_exponentText (d : Decimal) : IsExponent d.exponentText := by
  refine ⟨[if d.leadingExponent < 0 then '-' else '+'], _, rfl, ?_, ?_, fun c hc => ?_⟩
  · split_ifs <;> simp
  · simp [natText_ne_nil]
  · rcases List.mem_append.mp hc with hc | hc
    · exact isDecimalDigit_of_isDigit (isDigit_zeros c hc)
    · exact isDecimalDigit_natText c hc

theorem regular_scientificNumeral (d : Decimal) : d.scientificNumeral.Regular where
  whole c hc := isDecimalDigit_natText c (List.mem_of_mem_take hc)
  fraction := by
    rw [scientificNumeral]
    dsimp only
    split_ifs
    · exact .inl rfl
    · exact .inr ⟨_, rfl, fun c hc => isDecimalDigit_natText c (List.mem_of_mem_tail hc)⟩
  nonempty := .inl (by simp [scientificNumeral, natText_ne_nil])
  exponent := .inr ⟨_, rfl, d.isExponent_exponentText⟩

theorem regular_numeral (d : Decimal) : d.numeral.Regular := by
  unfold numeral
  split_ifs
  · exact d.regular_wholeNumeral
  · exact d.regular_placesNumeral
  · exact d.regular_scientificNumeral

/-- It does not end with the point. -/
theorem fraction_numeral_ne (d : Decimal) (h : d.numeral.exponent = []) :
    d.numeral.fraction ≠ ['.'] := by
  revert h
  unfold numeral
  split_ifs with hplain hwhole
  · intro _ hfraction
    cases hfraction
  · intro _ hfraction
    have hlength := d.lt_length_padded
    have hdrop := (List.cons.inj hfraction).2
    rw [List.drop_eq_nil_iff] at hdrop
    omega
  · intro h
    cases h

/-! ### It is what is written -/

theorem upperLatin_scientific (d : Decimal) :
    upperLatin d.scientific = d.scientificNumeral.text := by
  have hdigits := upperLatin_of_isDigit (@isDigit_natText d.digits)
  have hexponent : upperLatin d.exponentText = d.exponentText := by
    have hrest : ∀ c ∈ zeros (2 - (natText d.leadingExponent.natAbs).length) ++
        natText d.leadingExponent.natAbs, c.isDigit = true := by
      intro c hc
      rcases List.mem_append.mp hc with hc | hc
      · exact isDigit_zeros c hc
      · exact isDigit_natText c hc
    rw [exponentText, upperLatin, List.map_cons]
    congr 1
    · split_ifs <;> rfl
    · exact upperLatin_of_isDigit hrest
  have hmark : upperLatin ('e' :: d.exponentText) = 'E' :: d.exponentText := by
    rw [upperLatin, List.map_cons, ← upperLatin, hexponent]
    rfl
  obtain ⟨first, rest, hfirst⟩ := List.exists_cons_of_ne_nil (natText_ne_nil d.digits)
  rw [hfirst] at hdigits
  obtain ⟨hf, hr⟩ := List.cons.inj hdigits
  unfold scientific scientificNumeral Numeral.text
  dsimp only
  change upperLatin (_ ++ 'e' :: d.exponentText) = _
  rw [upperLatin_append, hmark, hfirst]
  by_cases hempty : rest = []
  · simp [hempty, upperLatin, hf]
  · have hrest : List.map Char.toUpper rest = rest := hr
    simp [hempty, upperLatin, hf, hrest]

/-- The shortest layout writes this numeral, up to the case of the mark. -/
theorem upperLatin_write (d : Decimal) : upperLatin (shortestLayout.write d) = d.numeral.text := by
  unfold Layout.write numeral
  simp only [shortestLayout, true_and]
  split_ifs with hplain hwhole
  · have htext : d.positional ++ ['.', '0'] = d.wholeNumeral.text := by
      rw [positional, if_pos hwhole]
      simp [wholeNumeral, Numeral.text]
    rw [htext]
    refine upperLatin_of_forall fun c hc => ?_
    simp only [Numeral.text, wholeNumeral, List.append_nil, List.mem_append] at hc
    rcases hc with hc | hc
    · exact .inl (d.isDigit_whole c (List.mem_append.mpr hc))
    · revert hc
      simp only [List.mem_cons, List.not_mem_nil, or_false]
      rintro (rfl | rfl) <;> decide
  · have htext : d.positional = d.placesNumeral.text := by
      rw [positional, if_neg hwhole]
      simp [placesNumeral, Numeral.text, padded]
    rw [htext]
    refine upperLatin_of_forall fun c hc => ?_
    simp only [Numeral.text, placesNumeral, List.append_nil, List.mem_append, List.mem_cons] at hc
    rcases hc with hc | rfl | hc
    · exact .inl (d.isDigit_padded c (List.mem_of_mem_take hc))
    · exact .inr rfl
    · exact .inl (d.isDigit_padded c (List.mem_of_mem_drop hc))
  · exact d.upperLatin_scientific

/-! ### It has the value of the decimal -/

theorem rat_wholeNumeral {d : Decimal} (h : 0 ≤ d.exponent) :
    d.wholeNumeral.value.toFraction.rat = d.toFraction.rat := by
  have hzeros : zeros d.exponent.toNat ++ ['0'] = zeros (d.exponent.toNat + 1) := by
    rw [zeros, zeros, List.replicate_succ']
  have hdigits : digitsValue (natText d.digits ++ zeros d.exponent.toNat ++ ['0']) =
      d.digits * 10 ^ (d.exponent.toNat + 1) := by
    rw [List.append_assoc, hzeros, digitsValue_append_zeros isDigit_natText, digitsValue_natText]
  have hvalue : d.wholeNumeral.value =
      { digits := d.digits * 10 ^ (d.exponent.toNat + 1), exponent := -1 } := by
    rw [← hdigits]
    rfl
  have hexponent : (10 : ℚ) ^ d.exponent = 10 ^ d.exponent.toNat := by
    rw [← zpow_natCast, Int.toNat_of_nonneg h]
  rw [hvalue, rat_toFraction, rat_toFraction, hexponent]
  push_cast
  rw [pow_succ, zpow_neg, zpow_one]
  field_simp

theorem value_placesNumeral {d : Decimal} (h : d.exponent < 0) : d.placesNumeral.value = d := by
  have hlength := d.lt_length_padded
  have hdigits : digitsValue d.padded = d.digits := by
    rw [padded, digitsValue_zeros_append, digitsValue_natText]
  unfold Numeral.value placesNumeral
  simp only [List.drop_one, List.tail_cons]
  rw [List.take_append_drop, hdigits, List.length_drop]
  cases d with
  | mk digits exponent =>
    simp only [Numeral.exponentValue, Decimal.mk.injEq, true_and] at h hlength ⊢
    omega

theorem exponentValue_scientificNumeral (d : Decimal) :
    d.scientificNumeral.exponentValue = d.leadingExponent := by
  have hdigits : digitsValue (zeros (2 - (natText d.leadingExponent.natAbs).length) ++
      natText d.leadingExponent.natAbs) = d.leadingExponent.natAbs := by
    rw [digitsValue_zeros_append, digitsValue_natText]
  unfold Numeral.exponentValue scientificNumeral exponentText
  dsimp only
  by_cases hneg : d.leadingExponent < 0
  · rw [if_pos hneg]
    change -((digitsValue _ : Nat) : Int) = _
    rw [hdigits]
    omega
  · rw [if_neg hneg]
    change ((digitsValue _ : Nat) : Int) = _
    rw [hdigits]
    omega

theorem value_scientificNumeral (d : Decimal) : d.scientificNumeral.value = d := by
  have hplaces : d.scientificNumeral.fraction.drop 1 = (natText d.digits).tail := by
    rw [scientificNumeral]
    dsimp only
    split_ifs with hempty
    · rw [hempty]
      rfl
    · rfl
  have hdigits : (natText d.digits).take 1 ++ (natText d.digits).tail = natText d.digits := by
    cases natText d.digits <;> simp
  have hlength := List.length_pos_of_ne_nil (natText_ne_nil d.digits)
  unfold Numeral.value
  rw [hplaces, exponentValue_scientificNumeral]
  change (⟨digitsValue ((natText d.digits).take 1 ++ (natText d.digits).tail), _⟩ : Decimal) = _
  rw [hdigits, digitsValue_natText, List.length_tail, leadingExponent]
  cases d with
  | mk digits exponent =>
    simp only [Decimal.mk.injEq, true_and] at hlength ⊢
    omega

theorem rat_numeral (d : Decimal) : d.numeral.value.toFraction.rat = d.toFraction.rat := by
  unfold numeral
  split_ifs with hplain hwhole
  · exact rat_wholeNumeral hwhole
  · rw [value_placesNumeral (not_le.mp hwhole)]
  · rw [value_scientificNumeral]

end Decimal

/-! ## Literals -/

/-- The text of a number that may have the sign of a written-back one. -/
def signedNumeral (negative : Bool) (n : Numeral) : Text :=
  if negative then negativeMark :: n.text else n.text

/-- A regular numeral starts with a digit or the point. -/
theorem text_of_regular_eq_cons {n : Numeral} (hn : n.Regular) :
    ∃ c rest, n.text = c :: rest ∧ (isDecimalDigit c = true ∨ c = '.') := by
  cases hwhole : n.whole with
  | cons c whole =>
    refine ⟨c, whole ++ n.fraction ++ n.exponent, ?_, .inl ?_⟩
    · rw [Numeral.text, hwhole]
      rfl
    · exact hn.whole c (by rw [hwhole]; exact List.mem_cons_self)
  | nil =>
    rcases hn.fraction with hf | ⟨places, hf, -⟩
    · have := hn.nonempty
      simp [hwhole, hf] at this
    · refine ⟨'.', places ++ n.exponent, ?_, .inr rfl⟩
      rw [Numeral.text, hwhole, hf]
      rfl

/-- A regular numeral that does not end with its point ends with digits. -/
theorem exists_digits_of_regular {n : Numeral} (hn : n.Regular)
    (hpoint : n.exponent = [] → n.fraction ≠ ['.']) :
    ∃ front digits, n.text = front ++ digits ∧ digits ≠ [] ∧
      ∀ c ∈ digits, isDecimalDigit c = true := by
  rcases hn.exponent with he | ⟨rest, he, sign, digits, rfl, -, hne, hdigits⟩
  · rcases hn.fraction with hf | ⟨places, hf, hplaces⟩
    · have hwhole : n.whole ≠ [] := by simpa [hf] using hn.nonempty
      exact ⟨[], n.whole, by simp [Numeral.text, he, hf], hwhole, hn.whole⟩
    · have hne : places ≠ [] := by
        rintro rfl
        exact hpoint he hf
      exact ⟨n.whole ++ ['.'], places, by simp [Numeral.text, he, hf], hne, hplaces⟩
  · exact ⟨n.whole ++ n.fraction ++ 'E' :: sign, digits, by simp [Numeral.text, he], hne, hdigits⟩

theorem literalText_of_negative {x : Float} {t : Text} (h : upperLatin (shortestText x) = '-' :: t) :
    literalText x = negativeMark :: t := by
  rw [literalText, h]
  rfl

theorem literalText_of_head_ne {x : Float} {c : Char} {t : Text} (hc : c ≠ '-')
    (h : upperLatin (shortestText x) = c :: t) : literalText x = c :: t := by
  rw [literalText, h]
  split
  · next heq =>
    cases heq
    exact absurd rfl hc
  · rfl

/-- The literal of a finite double is the numeral of a decimal with the double's sign, and it is
read as that double. -/
theorem exists_decimal_of_isFinite {x : Float} (h : x.isFinite = true) :
    ∃ negative, ∃ d : Decimal, literalText x = signedNumeral negative d.numeral ∧
      d.numeral.toDouble? negative = some x := by
  obtain ⟨negative, m, e, hx⟩ := isFinite_iff.mp h
  have htext : ∃ d : Decimal, d.toWord? = (Fraction.ofBinary m e).toWord? ∧
      shortestText x = if negative then '-' :: shortestLayout.write d else shortestLayout.write d := by
    -- zero is written as such, only other numbers have shortest digits
    refine ⟨if m = 0 then { digits := 0, exponent := 0 } else Decimal.shortest m e, ?_, ?_⟩
    · split_ifs with hm
      · rw [Decimal.toWord?_eq]
        refine Fraction.toWord?_congr ?_
        rw [Decimal.rat_toFraction, Fraction.rat_ofBinary, hm]
        simp
      · exact Decimal.toWord?_shortest m e
    · rw [shortestText, Layout.writeDouble, hx]
  obtain ⟨d, hword, hshort⟩ := htext
  refine ⟨negative, d, ?_, ?_⟩
  · obtain ⟨c, rest, htext, hc⟩ := text_of_regular_eq_cons d.regular_numeral
    have hwrite := d.upperLatin_write
    cases negative with
    | true =>
      refine literalText_of_negative ?_
      rw [hshort, if_pos rfl, ← hwrite]
      rfl
    | false =>
      rw [signedNumeral, if_neg Bool.false_ne_true, htext]
      refine literalText_of_head_ne ?_ ?_
      · rintro rfl
        revert hc
        decide
      · rw [hshort, if_neg Bool.false_ne_true, hwrite, htext]
  · rw [Numeral.toDouble?, Decimal.toWord?_congr d.rat_numeral, hword]
    exact toDouble?_of_denote hx

/-- **Written-back numbers.** The literal of a finite double is a regular numeral with the
double's sign, and it is read as that double. -/
theorem exists_numeral_of_isFinite {x : Float} (h : x.isFinite = true) :
    ∃ negative n, literalText x = signedNumeral negative n ∧ n.Regular ∧
      n.toDouble? negative = some x := by
  obtain ⟨negative, d, htext, hread⟩ := exists_decimal_of_isFinite h
  exact ⟨negative, d.numeral, htext, d.regular_numeral, hread⟩

/-- The literal of a finite double ends with a digit. -/
theorem exists_last_literalText {x : Float} (h : x.isFinite = true) :
    ∃ c, (literalText x).getLast? = some c ∧ isDecimalDigit c = true := by
  obtain ⟨negative, d, htext, -⟩ := exists_decimal_of_isFinite h
  obtain ⟨front, digits, hnumeral, hne, hdigits⟩ :=
    exists_digits_of_regular d.regular_numeral d.fraction_numeral_ne
  refine ⟨digits.getLast hne, ?_, hdigits _ (List.getLast_mem hne)⟩
  have hlast : ∀ t : Text, (t ++ digits).getLast? = some (digits.getLast hne) := fun t => by
    rw [List.getLast?_append_of_ne_nil t hne, List.getLast?_eq_some_getLast]
  rw [htext, signedNumeral, hnumeral]
  cases negative with
  | true => exact hlast (negativeMark :: front)
  | false => exact hlast front

end Reckoner

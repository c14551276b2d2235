import Reckoner.Proofs.Number.Rounding

/-!
# A double and its word

The parts that `denote` reads off the word of a double make up that word again, so a finite
double is the one nearest to the number that it denotes (`toDouble?_of_denote`).
-/

namespace Reckoner

open Float.Model UnpackedFloat

/-! ## Parts of a word -/

/-- The format of doubles. -/
abbrev doubleFormat : Format := Format.binary64

theorem toNat_unpackMantissa (b : BitVec 64) :
    (@unpackMantissa doubleFormat b).toNat = b.toNat % exponentUnit := by
  simp [unpackMantissa, BitVec.extractLsb, exponentUnit]

theorem toNat_unpackExponent (b : BitVec 64) :
    (@unpackExponent doubleFormat b).toNat = b.toNat / exponentUnit % 2048 := by
  simp [unpackExponent, BitVec.extractLsb, exponentUnit, Nat.shiftRight_eq_div_pow]

theorem toNat_unpackSign (b : BitVec 64) :
    (@unpackSign doubleFormat b).toNat = b.toNat / signBit := by
  have hb := b.isLt
  have hbit : (@unpackSign doubleFormat b).toNat = (b.extractLsb 63 63).toNat := rfl
  rw [hbit]
  simp [BitVec.extractLsb, signBit, Nat.shiftRight_eq_div_pow]
  omega

/-- A word is put together from its three parts. -/
theorem packComponents_unpack (b : BitVec 64) :
    packComponents doubleFormat (Sign.ofBitVec (@unpackSign doubleFormat b))
      (@unpackExponent doubleFormat b) (@unpackMantissa doubleFormat b) = b := by
  have hsign : (Sign.ofBitVec (@unpackSign doubleFormat b)).toBitVec = @unpackSign doubleFormat b := by
    generalize @unpackSign doubleFormat b = sign
    revert sign
    decide
  apply BitVec.eq_of_toNat_eq
  rw [packComponents, hsign]
  have h1 := toNat_unpackSign b
  have h2 := toNat_unpackExponent b
  have h3 := toNat_unpackMantissa b
  have hm := (@unpackMantissa doubleFormat b).isLt
  have he := (@unpackExponent doubleFormat b).isLt
  rw [BitVec.toNat_append, BitVec.toNat_append, ← Nat.shiftLeft_add_eq_or_of_lt hm,
    ← Nat.shiftLeft_add_eq_or_of_lt he, h1, h2, h3]
  simp only [Nat.shiftLeft_eq, exponentUnit, signBit]
  omega

/-! ## Packing what was unpacked -/

theorem pack_subnormal (sign : Sign) {m : Nat} (hpos : 0 < m) (hm : m < 2 ^ 52) :
    UnpackedFloat.pack doubleFormat (.finite sign m (-1074) hpos) =
      packComponents doubleFormat sign 0 (BitVec.ofNat 52 m) := by
  have hlog : m.log2 < 52 := (Nat.log2_lt hpos.ne').mpr hm
  unfold UnpackedFloat.pack
  dsimp only
  split_ifs with hlarge hnormal
  · norm_num [Format.exponentBias] at hlarge
  · change m.log2 + 1 = 1 + 52 at hnormal
    omega
  · rfl

theorem pack_normal (sign : Sign) {m biased : Nat} (hpos : 0 < m) (hl : 2 ^ 52 ≤ m)
    (hm : m < 2 ^ 53) (hb : biased < 2047) :
    UnpackedFloat.pack doubleFormat (.finite sign m ((biased : Int) - 1075) hpos) =
      packComponents doubleFormat sign (BitVec.ofNat 11 biased) (BitVec.ofNat 52 m) := by
  have hlog : m.log2 = 52 := (Nat.log2_eq_iff hpos.ne').mpr ⟨hl, hm⟩
  have hbias : ((biased : Int) - 1075 + (doubleFormat.exponentBias : Int) + (52 : Nat)).toNat =
      biased := by
    simp [Format.exponentBias]
    omega
  unfold UnpackedFloat.pack
  dsimp only
  split_ifs with hlarge hnormal
  · rw [hbias] at hlarge
    norm_num at hlarge
    omega
  · rw [hbias]
  · exact absurd (show m.log2 + 1 = 1 + 52 by omega) hnormal

/-- A normal number has one bit more than are stored. -/
theorem toNat_one_append {m : BitVec 52} (hm : m.toNat < 2 ^ 52) :
    (1#1 ++ m).toNat = 2 ^ 52 + m.toNat := by
  rw [BitVec.toNat_append, ← Nat.shiftLeft_add_eq_or_of_lt hm]
  rfl

/-- The parts of a subnormal number, packed again. -/
theorem pack_subnormal_parts {b : BitVec 64} (hexponent : @unpackExponent doubleFormat b = 0#_)
    (hpos : 0 < (@unpackMantissa doubleFormat b).toNat) :
    UnpackedFloat.pack doubleFormat (.finite (Sign.ofBitVec (@unpackSign doubleFormat b))
      (@unpackMantissa doubleFormat b).toNat (-1074) hpos) = b := by
  have hparts := packComponents_unpack b
  have hpack := pack_subnormal (Sign.ofBitVec (@unpackSign doubleFormat b)) hpos
    (@unpackMantissa doubleFormat b).isLt
  rw [BitVec.ofNat_toNat, BitVec.setWidth_eq] at hpack
  rw [hexponent] at hparts
  exact hpack.trans hparts

/-- The parts of a normal number, packed again. -/
theorem pack_normal_parts {b : BitVec 64} (hlast : @unpackExponent doubleFormat b ≠ -1#_)
    (hpos : 0 < (1#1 ++ @unpackMantissa doubleFormat b).toNat) :
    UnpackedFloat.pack doubleFormat (.finite (Sign.ofBitVec (@unpackSign doubleFormat b))
      (1#1 ++ @unpackMantissa doubleFormat b).toNat
      ((@unpackExponent doubleFormat b).toNat - 1075) hpos) = b := by
  have hm : (@unpackMantissa doubleFormat b).toNat < 2 ^ 52 := (@unpackMantissa doubleFormat b).isLt
  have he : (@unpackExponent doubleFormat b).toNat < 2 ^ 11 := (@unpackExponent doubleFormat b).isLt
  have hmantissa := toNat_one_append hm
  have hnot : (@unpackExponent doubleFormat b).toNat ≠ 2047 := fun hn =>
    hlast (BitVec.eq_of_toNat_eq hn)
  have hstored : BitVec.ofNat 52 (1#1 ++ @unpackMantissa doubleFormat b).toNat =
      @unpackMantissa doubleFormat b := by
    apply BitVec.eq_of_toNat_eq
    rw [BitVec.toNat_ofNat, hmantissa]
    omega
  have hpack := pack_normal (Sign.ofBitVec (@unpackSign doubleFormat b)) hpos (by omega) (by omega)
    (show (@unpackExponent doubleFormat b).toNat < 2047 by omega)
  rw [hstored, BitVec.ofNat_toNat, BitVec.setWidth_eq] at hpack
  exact hpack.trans (packComponents_unpack b)

theorem pack_unpack {b : BitVec 64} (h : doubleFormat.Valid b) :
    UnpackedFloat.pack doubleFormat (UnpackedFloat.unpack doubleFormat b) = b := by
  have hparts := packComponents_unpack b
  have hbias : (doubleFormat.exponentBias : Int) + doubleFormat.mantissaBitsWithoutImplicit = 1075 := by
    decide
  unfold UnpackedFloat.unpack
  dsimp only
  rw [hbias]
  by_cases hlast : @unpackExponent doubleFormat b = -1#_
  · rw [if_pos hlast]
    by_cases hinfinity : @unpackMantissa doubleFormat b = 0#_
    · rw [if_pos hinfinity]
      rw [hlast, hinfinity] at hparts
      exact hparts
    · rw [if_neg hinfinity]
      exact (h.eq_packedNaN hlast hinfinity).symm
  rw [if_neg hlast]
  by_cases hleast : @unpackExponent doubleFormat b = 0#_
  · rw [if_pos hleast]
    by_cases hzero : @unpackMantissa doubleFormat b = 0#_
    · rw [dif_pos hzero]
      rw [hleast, hzero] at hparts
      exact hparts
    · rw [dif_neg hzero]
      have hexponent : ((@unpackExponent doubleFormat b).toNat : Int) - 1075 + 1 = -1074 := by
        simp [hleast]
      rw [hexponent]
      exact pack_subnormal_parts hleast _
  · rw [if_neg hleast]
    exact pack_normal_parts hlast _

theorem ofBits_toBits (x : Float) : Float.ofBits x.toBits = x := by
  obtain ⟨⟨word, hword⟩⟩ := x
  have hmodel : ∀ {w : UInt64} (hw : doubleFormat.Valid w.toBitVec), w = word →
      Float.ofModel ⟨w, hw⟩ = Float.ofModel ⟨word, hword⟩ := by
    rintro w hw rfl
    rfl
  exact hmodel _ (congrArg UInt64.ofBitVec (pack_unpack hword))

/-! ## What a double denotes -/

/-- The significand and the exponent of a finite double are in the range that rounding
leaves alone, and with the sign they make up its word. -/
theorem word_of_denote {x : Float} {negative : Bool} {m : Nat} {e : Int}
    (h : denote x = .finite negative m e) :
    m < 2 ^ 53 ∧ leastExponent ≤ e ∧ (2 ^ 52 ≤ m ∨ e = leastExponent) ∧
      (e - leastExponent).toNat * exponentUnit + m < infinityWord ∧
      x.toBits.toNat =
        (e - leastExponent).toNat * exponentUnit + m + if negative then signBit else 0 := by
  have hword := x.toBits.toNat_lt
  unfold denote at h
  dsimp only at h
  generalize x.toBits.toNat = word at *
  have hnegative : negative = decide (signBit ≤ word) := by
    split_ifs at h <;> cases h <;> rfl
  have hsign : (if negative then signBit else 0) = word / signBit * signBit := by
    by_cases hs : signBit ≤ word
    · rw [hnegative, decide_eq_true hs, if_pos rfl]
      simp only [signBit] at *
      omega
    · rw [hnegative, decide_eq_false hs, if_neg Bool.false_ne_true]
      simp only [signBit] at *
      omega
  have hparts : word / exponentUnit / 2048 = word / signBit := Nat.div_div_eq_div_mul ..
  rw [hsign]
  split_ifs at h
  · cases h
    simp only [exponentUnit, signBit, infinityWord, leastExponent] at *
    exact ⟨by omega, by omega, .inr trivial, by omega, by omega⟩
  · cases h
    simp only [exponentUnit, signBit, infinityWord, leastExponent] at *
    exact ⟨by omega, by omega, .inl (by omega), by omega, by omega⟩

/-- A finite double is the nearest one to the number it denotes. -/
theorem toDouble?_of_denote {x : Float} {negative : Bool} {m : Nat} {e : Int}
    (h : denote x = .finite negative m e) :
    (Fraction.ofBinary m e).toDouble? negative = some x := by
  obtain ⟨hm, he, hn, hw, hword⟩ := word_of_denote h
  rw [Fraction.toDouble?, Fraction.toWord?_ofBinary hm he hn hw, Option.map_some, ofWord,
    ← hword, UInt64.ofNat_toNat, ofBits_toBits]

/-- Only the words of infinities and of what is undefined have the last exponent. -/
theorem isFinite_unpack (b : BitVec 64) :
    (UnpackedFloat.unpack doubleFormat b).isFinite =
      !decide (@unpackExponent doubleFormat b = -1#_) := by
  unfold UnpackedFloat.unpack
  dsimp only
  by_cases h1 : @unpackExponent doubleFormat b = -1#_
  · rw [if_pos h1, decide_eq_true h1]
    split_ifs <;> rfl
  rw [if_neg h1, decide_eq_false h1]
  by_cases h3 : @unpackExponent doubleFormat b = 0#_
  · rw [if_pos h3]
    by_cases h4 : @unpackMantissa doubleFormat b = 0#_
    · rw [dif_pos h4]
      rfl
    · rw [dif_neg h4]
      rfl
  · rw [if_neg h3]
    rfl

theorem isFinite_eq (x : Float) :
    x.isFinite = !decide (x.toBits.toNat / exponentUnit % 2048 = 2047) := by
  have hexponent : (@unpackExponent doubleFormat x.toBits.toBitVec = -1#_) ↔
      x.toBits.toNat / exponentUnit % 2048 = 2047 := by
    rw [show x.toBits.toNat = x.toBits.toBitVec.toNat from rfl, ← toNat_unpackExponent]
    exact BitVec.toNat_inj.symm
  rw [← decide_eq_decide.mpr hexponent]
  exact isFinite_unpack x.toBits.toBitVec

/-- The finite doubles are those that denote a number. -/
theorem isFinite_iff {x : Float} :
    x.isFinite = true ↔ ∃ negative m e, denote x = .finite negative m e := by
  rw [isFinite_eq]
  unfold denote
  dsimp only
  split_ifs with h1 h2 h3 <;> simp [h1]

end Reckoner

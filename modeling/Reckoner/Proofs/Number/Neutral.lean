import Reckoner.Proofs.Number.Finite
import Mathlib

/-!
# Neutral operands

Adding or taking away zero, and multiplying or dividing by one, give back the number they are
applied to; only the sum may have another sign, where it is zero (`sameNumber_add_zero`,
`sub_zero_eq`, `mul_one_eq`, `div_one_eq`). A zero of the other sign as the right operand changes
nothing but the sign of a zero (`SameNumber.add`, `SameNumber.sub`, `SameNumber.mul`).
-/

namespace Reckoner

open Float.Model UnpackedFloat

/-- Two doubles are the same number: they are the same double, or both are zero. -/
def SameNumber (x y : Float) : Prop := x = y ∨ ((x == 0) = true ∧ (y == 0) = true)

variable {x y z : Float}

/-! ## Unpacked doubles -/

/-- The double of an unpacked number. -/
def repacked (u : UnpackedFloat) : Float := Float.ofModel (Float.Model.pack u)

theorem repacked_unpack (x : Float) : repacked x.toModel.unpack = x := ofBits_toBits x

theorem unpack_one : ∃ h, (1.0 : Float).toModel.unpack = .finite .positive (2 ^ 52) (-52) h :=
  ⟨by decide, rfl⟩

theorem targetExponent_double (t : Int) : doubleFormat.targetExponent t = max (t - 53) (-1074) := by
  simp only [Format.targetExponent, Format.minExponent, Format.mantissaBits]
  norm_num

theorem targetExponent_of_subnormal {m : Nat} (h : 0 < m) (hm : m < 2 ^ 52) :
    doubleFormat.targetExponent (totalExponent m (-1074)) = -1074 := by
  have hlog : m.log2 < 52 := (Nat.log2_lt h.ne').mpr hm
  rw [targetExponent_double, totalExponent]
  omega

theorem targetExponent_of_normal {m : Nat} {e : Int} (hl : 2 ^ 52 ≤ m) (hm : m < 2 ^ 53)
    (he : -1074 ≤ e) : doubleFormat.targetExponent (totalExponent m e) = e := by
  have hlog : m.log2 = 52 := (Nat.log2_eq_iff (by omega)).mpr ⟨hl, hm⟩
  rw [targetExponent_double, totalExponent]
  omega

/-- An unpacked double has the exponent that rounding aims at. -/
theorem targetExponent_unpack {sign : Sign} {m : Nat} {e : Int} {h : 0 < m}
    (hx : x.toModel.unpack = .finite sign m e h) :
    doubleFormat.targetExponent (totalExponent m e) = e := by
  have hunpack : UnpackedFloat.unpack doubleFormat x.toBits.toBitVec = .finite sign m e h := hx
  generalize x.toBits.toBitVec = b at hunpack
  have hbias : (doubleFormat.exponentBias : Int) + doubleFormat.mantissaBitsWithoutImplicit = 1075 := by
    decide
  have hmantissa : (@unpackMantissa doubleFormat b).toNat < 2 ^ 52 :=
    (@unpackMantissa doubleFormat b).isLt
  unfold UnpackedFloat.unpack at hunpack
  dsimp only at hunpack
  rw [hbias] at hunpack
  split_ifs at hunpack with h1 h2 h3 h4
  · cases hunpack
    rw [h3]
    exact targetExponent_of_subnormal h hmantissa
  · have hexponent : 0 < (@unpackExponent doubleFormat b).toNat :=
      Nat.pos_of_ne_zero fun hzero => h3 (BitVec.eq_of_toNat_eq hzero)
    have hnormal := toNat_one_append hmantissa
    cases hunpack
    exact targetExponent_of_normal (by omega) (by omega) (by omega)

/-! ## Rounding what is a double already -/

theorem shiftRight_exact (m k : Nat) :
    (⟨m * 2 ^ k, false, false⟩ : ExtendedMantissa) >>> k = ⟨m, false, false⟩ := by
  induction k generalizing m with
  | zero => simp [HShiftRight.hShiftRight, Nat.repeat]
  | succ k ih =>
    have hnext : ExtendedMantissa.shiftRightOne ⟨m * 2, false, false⟩ = ⟨m, false, false⟩ := by
      simp [ExtendedMantissa.shiftRightOne]
    have hscaled : m * 2 ^ (k + 1) = m * 2 * 2 ^ k := by ring
    show ExtendedMantissa.shiftRightOne
      ((⟨m * 2 ^ (k + 1), false, false⟩ : ExtendedMantissa) >>> k) = _
    rw [hscaled, ih, hnext]

theorem totalExponent_scaled {m : Nat} (h : 0 < m) (e : Int) (k : Nat) :
    totalExponent (m * 2 ^ k) (e - k) = totalExponent m e := by
  have hlog : (m * 2 ^ k).log2 = m.log2 + k := by
    obtain ⟨hl, hm⟩ := (Nat.log2_eq_iff h.ne').mp rfl
    refine (Nat.log2_eq_iff (by positivity)).mpr ⟨?_, ?_⟩
    · rw [pow_add]
      exact Nat.mul_le_mul_right _ hl
    · rw [show m.log2 + k + 1 = m.log2 + 1 + k by omega, pow_add]
      exact Nat.mul_lt_mul_of_pos_right hm (by positivity)
  rw [totalExponent, totalExponent, hlog]
  push_cast
  ring

/-- Trailing zeros that a significand was given are taken away again. -/
theorem roundWithAccuracy_scaled {m : Nat} {e : Int} (sign : Sign) (h : 0 < m)
    (htarget : doubleFormat.targetExponent (totalExponent m e) = e) (k : Nat) :
    roundWithAccuracy doubleFormat sign (m * 2 ^ k) (e - k) .exact = .finite sign m e h := by
  have hshift : shiftToTargetExponent doubleFormat (m * 2 ^ k) (e - k) .exact =
      (⟨m, false, false⟩, e) := by
    have hcount : (e - (e - k)).toNat = k := by omega
    rw [shiftToTargetExponent, totalExponent_scaled h, htarget, shiftToExponent, hcount]
    simp only [ExtendedMantissa.ofMantissaAndAccuracy, shiftRight_exact, Prod.mk.injEq, true_and]
    omega
  have hstay : shiftToTargetExponent doubleFormat m e .exact = (⟨m, false, false⟩, e) := by
    rw [shiftToTargetExponent, htarget, shiftToExponent, Int.sub_self]
    simp only [ExtendedMantissa.ofMantissaAndAccuracy, Prod.mk.injEq]
    exact ⟨rfl, by simp⟩
  have hrounded : ExtendedMantissa.roundedMantissa ⟨m, false, false⟩ = m := rfl
  unfold roundWithAccuracy
  simp only [hshift, hrounded, hstay, h.ne', dite_false]

/-! ## Zero and one -/

theorem sign_mul_positive (sign : Sign) : sign * .positive = sign := by cases sign <;> rfl

theorem sign_div_positive (sign : Sign) : sign / .positive = sign := by cases sign <;> rfl

/-- The quotient by one is taken with one bit more, except where the significand is small. -/
theorem divCore_one {m : Nat} {e : Int}
    (htarget : doubleFormat.targetExponent (totalExponent m e) = e) :
    ∃ k : Nat, divCore doubleFormat m e (2 ^ 52) (-52) = (m * 2 ^ k, e - k, .exact) := by
  have hone : totalExponent (2 ^ 52) (-52) = 1 := by decide
  rw [targetExponent_double, totalExponent] at htarget
  obtain ⟨k, hk⟩ : ∃ k : Nat,
      min (e - -52) (doubleFormat.targetExponent (totalExponent m e - 1)) = e - k := by
    rw [targetExponent_double, totalExponent]
    exact ⟨(e - max (m.log2 + 1 + e - 1 - 53) (-1074)).toNat, by omega⟩
  refine ⟨k, ?_⟩
  rw [divCore, hone]
  have hcount : (e - -52 - (e - k)).toNat = k + 52 := by omega
  simp only [hk, hcount, Nat.shiftLeft_eq, pow_add, ← mul_assoc]
  rw [Nat.mul_div_cancel _ (by positivity), Nat.mul_mod_left]
  rfl

theorem beq_zero_iff : (x == 0) = true ↔ ∃ sign, x.toModel.unpack = .zero sign := by
  show x.toModel.unpack.beq (.zero .positive) = true ↔ _
  rw [UnpackedFloat.beq_iff_ne_notANumber_and_eq]
  cases x.toModel.unpack with
  | notANumber | infinity | finite => simp
  | zero sign => cases sign <;> simp

theorem repacked_zero_beq_zero (sign : Sign) : (repacked (.zero sign) == 0) = true :=
  beq_zero_iff.mpr ⟨sign, by cases sign <;> rfl⟩

/-- What differs in the sign of a zero alone is the same number. -/
theorem sameNumber_repacked {u v : UnpackedFloat}
    (h : u = v ∨ ((∃ sign, u = .zero sign) ∧ ∃ sign, v = .zero sign)) :
    SameNumber (repacked u) (repacked v) := by
  rcases h with rfl | ⟨⟨sign, rfl⟩, sign', rfl⟩
  · exact .inl rfl
  · exact .inr ⟨repacked_zero_beq_zero sign, repacked_zero_beq_zero sign'⟩

theorem sameNumber_add_zero (x : Float) : SameNumber (x + 0.0) x := by
  have hsum : SameNumber (repacked (x.toModel.unpack.add doubleFormat (.zero .positive)))
      (repacked x.toModel.unpack) := by
    apply sameNumber_repacked
    cases x.toModel.unpack with
    | zero sign => cases sign <;> exact .inr ⟨⟨_, rfl⟩, _, rfl⟩
    | notANumber | infinity | finite => exact .inl rfl
  rwa [repacked_unpack] at hsum

theorem sub_zero_eq (x : Float) : x - 0.0 = x := by
  have hunpacked : ∀ u : UnpackedFloat, u.sub doubleFormat (.zero .positive) = u := by
    intro u
    cases u with
    | zero sign => cases sign <;> rfl
    | notANumber | infinity | finite => rfl
  show repacked (x.toModel.unpack.sub doubleFormat (.zero .positive)) = x
  rw [hunpacked, repacked_unpack]

theorem mul_one_eq (x : Float) : x * 1.0 = x := by
  obtain ⟨hpos, hone⟩ := unpack_one
  have hunpacked : x.toModel.unpack.mul doubleFormat (1.0 : Float).toModel.unpack =
      x.toModel.unpack := by
    rw [hone]
    cases hx : x.toModel.unpack with
    | notANumber => rfl
    | infinity sign | zero sign => simp [UnpackedFloat.mul, sign_mul_positive]
    | finite sign m e h =>
      have hround := roundWithAccuracy_scaled sign h (targetExponent_unpack hx) 52
      simpa [UnpackedFloat.mul, sign_mul_positive, sub_eq_add_neg] using hround
  show repacked (x.toModel.unpack.mul doubleFormat (1.0 : Float).toModel.unpack) = x
  rw [hunpacked, repacked_unpack]

theorem div_one_eq (x : Float) : x / 1.0 = x := by
  obtain ⟨hpos, hone⟩ := unpack_one
  have hunpacked : x.toModel.unpack.div doubleFormat (1.0 : Float).toModel.unpack =
      x.toModel.unpack := by
    rw [hone]
    cases hx : x.toModel.unpack with
    | notANumber => rfl
    | infinity sign | zero sign => simp [UnpackedFloat.div, sign_div_positive]
    | finite sign m e h =>
      have htarget := targetExponent_unpack hx
      obtain ⟨k, hk⟩ := divCore_one htarget
      have hround := roundWithAccuracy_scaled sign h htarget k
      simpa only [UnpackedFloat.div, sign_div_positive, hk] using hround
  show repacked (x.toModel.unpack.div doubleFormat (1.0 : Float).toModel.unpack) = x
  rw [hunpacked, repacked_unpack]

/-! ## Operands that are the same number -/

namespace SameNumber

theorem refl (x : Float) : SameNumber x x := .inl rfl

theorem beq_zero (h : SameNumber y z) : (y == 0) = (z == 0) := by
  rcases h with rfl | ⟨hy, hz⟩
  · rfl
  · rw [hy, hz]

/-- Zeros as the right operand of an operation that keeps to zeros. -/
theorem congr_right {f : UnpackedFloat → UnpackedFloat → UnpackedFloat} (h : SameNumber y z)
    (hzero : ∀ u sign sign', f u (.zero sign) = f u (.zero sign') ∨
      ((∃ s, f u (.zero sign) = .zero s) ∧ ∃ s, f u (.zero sign') = .zero s)) (x : Float) :
    SameNumber (repacked (f x.toModel.unpack y.toModel.unpack))
      (repacked (f x.toModel.unpack z.toModel.unpack)) := by
  rcases h with rfl | ⟨hy, hz⟩
  · exact refl _
  obtain ⟨sign, hy⟩ := beq_zero_iff.mp hy
  obtain ⟨sign', hz⟩ := beq_zero_iff.mp hz
  rw [hy, hz]
  exact sameNumber_repacked (hzero _ sign sign')

theorem add (h : SameNumber y z) (x : Float) : SameNumber (x + y) (x + z) := by
  refine h.congr_right (fun u sign sign' => ?_) x
  cases u with
  | zero s => cases s <;> cases sign <;> cases sign' <;> exact .inr ⟨⟨_, rfl⟩, _, rfl⟩
  | notANumber | infinity | finite => exact .inl rfl

theorem sub (h : SameNumber y z) (x : Float) : SameNumber (x - y) (x - z) := by
  refine h.congr_right (fun u sign sign' => ?_) x
  cases u with
  | zero s => cases s <;> cases sign <;> cases sign' <;> exact .inr ⟨⟨_, rfl⟩, _, rfl⟩
  | notANumber | infinity | finite => exact .inl rfl

theorem mul (h : SameNumber y z) (x : Float) : SameNumber (x * y) (x * z) := by
  refine h.congr_right (fun u sign sign' => ?_) x
  cases u with
  | zero | finite => exact .inr ⟨⟨_, rfl⟩, _, rfl⟩
  | notANumber | infinity => exact .inl rfl

/-- A divisor that is not zero has no other double for its number. -/
theorem div (h : SameNumber y z) (hz : (z == 0) = false) (x : Float) : x / y = x / z := by
  rcases h with rfl | ⟨-, hzero⟩
  · rfl
  · rw [hz] at hzero
    exact absurd hzero Bool.false_ne_true

end SameNumber

/-! ## Finite numbers -/

theorem beq_self_of_isFinite (h : x.isFinite = true) : (x == x) = true := by
  have hnumber : x.toModel.unpack ≠ .notANumber := fun hx => by
    replace h : x.toModel.unpack.isFinite = true := h
    rw [hx] at h
    contradiction
  exact (UnpackedFloat.beq_iff_ne_notANumber_and_eq _ _).mpr ⟨hnumber, hnumber, .inl rfl⟩

/-- A finite double passes both checks. -/
theorem checks_of_isFinite (h : x.isFinite = true) : x.isNaN = false ∧ x.isInf = false := by
  show x.toModel.unpack.isNaN = false ∧ x.toModel.unpack.isInf = false
  replace h : x.toModel.unpack.isFinite = true := h
  generalize x.toModel.unpack = u at h
  cases u with
  | notANumber | infinity => exact absurd h Bool.false_ne_true
  | zero | finite => exact ⟨rfl, rfl⟩

theorem isFinite_of_beq_zero (h : (x == 0) = true) : x.isFinite = true := by
  obtain ⟨sign, hx⟩ := beq_zero_iff.mp h
  show x.toModel.unpack.isFinite = true
  rw [hx]
  rfl

theorem SameNumber.isFinite (h : SameNumber x y) (hy : y.isFinite = true) : x.isFinite = true := by
  rcases h with rfl | ⟨hx, -⟩
  · exact hy
  · exact isFinite_of_beq_zero hx

/-- Finite doubles that are the same number compare equal. -/
theorem SameNumber.beq (h : SameNumber x y) (hy : y.isFinite = true) : (x == y) = true := by
  rcases h with rfl | ⟨hx, hzero⟩
  · exact beq_self_of_isFinite hy
  obtain ⟨sign, hx⟩ := beq_zero_iff.mp hx
  obtain ⟨sign', hy⟩ := beq_zero_iff.mp hzero
  show x.toModel.unpack.beq y.toModel.unpack = true
  rw [hx, hy]
  rfl

end Reckoner

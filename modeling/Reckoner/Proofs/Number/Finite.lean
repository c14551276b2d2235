import Reckoner.Proofs.Number.Reading
import Reckoner.Evaluation.Operator

/-!
# Finite doubles

Sums, differences and products do not come back from infinity, and a quotient only does so by
an infinite divisor. What is rounded from an exact number is finite, and so is what passes the
checks of powers, remainders and factorials.
-/

namespace Reckoner

open Float.Model UnpackedFloat

variable {x y z : Float}

/-! ## Arithmetic -/

theorem isFinite_of_isFinite_pack {u : UnpackedFloat} (h : (Float.Model.pack u).isFinite = true) :
    u.isFinite = true := by
  cases u with
  | notANumber => exact absurd h (by decide)
  | infinity sign => cases sign <;> exact absurd h (by decide)
  | zero => rfl
  | finite => rfl

/-- A sum, a difference or a product of unpacked doubles is finite only if both of them are. -/
theorem finite_of_finite_unpacked {op : UnpackedFloat → UnpackedFloat → UnpackedFloat}
    (hop : op = add doubleFormat ∨ op = sub doubleFormat ∨ op = mul doubleFormat)
    {u v : UnpackedFloat} (h : (op u v).isFinite = true) :
    u.isFinite = true ∧ v.isFinite = true := by
  cases u with
  | notANumber =>
    obtain rfl | rfl | rfl := hop <;> cases v <;> exact absurd h Bool.false_ne_true
  | infinity sign =>
    cases v with
    | infinity sign' =>
      -- two infinities may cancel out, which leaves no number
      obtain rfl | rfl | rfl := hop <;> cases sign <;> cases sign' <;>
        exact absurd h Bool.false_ne_true
    | notANumber | zero | finite =>
      obtain rfl | rfl | rfl := hop <;> exact absurd h Bool.false_ne_true
  | zero | finite =>
    cases v with
    | notANumber | infinity =>
      obtain rfl | rfl | rfl := hop <;> exact absurd h Bool.false_ne_true
    | zero | finite => exact ⟨rfl, rfl⟩

theorem finite_of_finite_add (h : (x + y).isFinite = true) :
    x.isFinite = true ∧ y.isFinite = true :=
  finite_of_finite_unpacked (.inl rfl) (isFinite_of_isFinite_pack h)

theorem finite_of_finite_sub (h : (x - y).isFinite = true) :
    x.isFinite = true ∧ y.isFinite = true :=
  finite_of_finite_unpacked (.inr (.inl rfl)) (isFinite_of_isFinite_pack h)

theorem finite_of_finite_mul (h : (x * y).isFinite = true) :
    x.isFinite = true ∧ y.isFinite = true :=
  finite_of_finite_unpacked (.inr (.inr rfl)) (isFinite_of_isFinite_pack h)

theorem finite_of_finite_div (h : (x / y).isFinite = true) (hy : y.isFinite = true) :
    x.isFinite = true := by
  have hunpacked : ∀ u v : UnpackedFloat, (u.div doubleFormat v).isFinite = true →
      v.isFinite = true → u.isFinite = true := by
    intro u v h hv
    cases u with
    | notANumber => cases v <;> exact absurd h Bool.false_ne_true
    | infinity =>
      cases v with
      | notANumber | infinity => exact absurd hv Bool.false_ne_true
      | zero | finite => exact absurd h Bool.false_ne_true
    | zero | finite => rfl
  exact hunpacked _ _ (isFinite_of_isFinite_pack h) hy

theorem isFinite_of_checks (hnumber : x.isNaN = false) (hbounded : x.isInf = false) :
    x.isFinite = true := by
  have hunpacked : ∀ u : UnpackedFloat, u.isNaN = false → u.isInf = false → u.isFinite = true := by
    intro u hnumber hbounded
    cases u with
    | notANumber => cases hnumber
    | infinity => cases hbounded
    | zero => rfl
    | finite => rfl
  exact hunpacked _ hnumber hbounded

/-! ## Signs -/

/-- Whether a packed number is finite does not depend on its sign. -/
theorem isFinite_pack_finite (sign sign' : Sign) {m : Nat} (e : Int) (hm : 0 < m) :
    (Float.Model.pack (.finite sign m e hm)).isFinite =
      (Float.Model.pack (.finite sign' m e hm)).isFinite := by
  have hexponent : ∀ u, (Float.Model.pack u).isFinite =
      !decide (@unpackExponent doubleFormat (UnpackedFloat.pack doubleFormat u) = -1#_) :=
    fun u => isFinite_unpack _
  rw [hexponent, hexponent]
  unfold UnpackedFloat.pack
  dsimp only
  split_ifs <;> simp only [packedInfinity, unpackExponent_packComponents]

theorem isFinite_pack_unpack (hx : x.isFinite = true) :
    (Float.Model.pack x.toModel.unpack).isFinite = true :=
  (congrArg Float.isFinite (ofBits_toBits x)).trans hx

/-- A sign in front of a number is the sum or the difference of it and zero. -/
theorem isFinite_zero_add (hy : y.isFinite = true) : (0.0 + y).isFinite = true := by
  have hpack := isFinite_pack_unpack hy
  show (Float.Model.pack (UnpackedFloat.add doubleFormat (.zero .positive)
    y.toModel.unpack)).isFinite = true
  generalize y.toModel.unpack = u at hpack
  cases u with
  | notANumber | infinity => exact absurd (isFinite_of_isFinite_pack hpack) Bool.false_ne_true
  | zero sign => cases sign <;> decide
  | finite => exact hpack

theorem isFinite_zero_sub (hy : y.isFinite = true) : (0.0 - y).isFinite = true := by
  have hpack := isFinite_pack_unpack hy
  show (Float.Model.pack (UnpackedFloat.sub doubleFormat (.zero .positive)
    y.toModel.unpack)).isFinite = true
  generalize y.toModel.unpack = u at hpack
  cases u with
  | notANumber | infinity => exact absurd (isFinite_of_isFinite_pack hpack) Bool.false_ne_true
  | zero sign => cases sign <;> decide
  | finite sign m e hm => exact (isFinite_pack_finite (-sign) sign e hm).trans hpack

/-! ## Exact numbers -/

theorem isFinite_ofBits {b : UInt64} (h : b.toNat / exponentUnit % 2048 ≠ 2047) :
    (Float.ofBits b).isFinite = true := by
  have hexponent : @unpackExponent doubleFormat b.toBitVec ≠ -1#_ := by
    intro hlast
    have hfield := toNat_unpackExponent b.toBitVec
    rw [hlast] at hfield
    exact h hfield.symm
  have hvalid : doubleFormat.Valid b.toBitVec := ⟨fun hlast => absurd hlast hexponent⟩
  have hpack : UnpackedFloat.pack doubleFormat (UnpackedFloat.unpack doubleFormat b.toBitVec) =
      b.toBitVec := pack_unpack hvalid
  show (UnpackedFloat.unpack doubleFormat (UnpackedFloat.pack doubleFormat
    (UnpackedFloat.unpack doubleFormat b.toBitVec))).isFinite = true
  rw [hpack, isFinite_unpack, decide_eq_false hexponent]
  rfl

theorem isFinite_ofWord (negative : Bool) {word : Nat} (h : word < infinityWord) :
    (ofWord negative word).isFinite = true := by
  refine isFinite_ofBits ?_
  rw [UInt64.toNat_ofNat']
  simp only [infinityWord, exponentUnit, signBit] at h ⊢
  split_ifs <;> omega

theorem isFinite_of_toWord? {f : Fraction} {word : Nat} (negative : Bool)
    (h : f.toWord? = some word) : (ofWord negative word).isFinite = true := by
  unfold Fraction.toWord? at h
  dsimp only at h
  split_ifs at h with hzero hword hword <;> cases h <;> exact isFinite_ofWord negative hword

theorem isFinite_of_toDouble? {f : Fraction} {negative : Bool} (h : f.toDouble? negative = some x) :
    x.isFinite = true := by
  obtain ⟨word, hword, rfl⟩ := Option.map_eq_some_iff.mp h
  exact isFinite_of_toWord? negative hword

theorem Numeral.isFinite_of_toDouble? {n : Numeral} {negative : Bool}
    (h : n.toDouble? negative = some x) : x.isFinite = true := by
  obtain ⟨word, hword, rfl⟩ := Option.map_eq_some_iff.mp h
  rw [Decimal.toWord?_eq] at hword
  exact isFinite_of_toWord? negative hword

/-! ## Checked operations -/

theorem isFinite_of_power (hx : x.isFinite = true) (hy : y.isFinite = true)
    (h : power x y = .ok z) : z.isFinite = true := by
  unfold power at h
  dsimp only at h
  rw [hx, hy, Bool.and_true, if_pos rfl] at h
  split_ifs at h with hnumber hbounded
  cases h
  exact isFinite_of_checks (by simpa using hnumber) (by simpa using hbounded)

theorem isFinite_remainder (hx : x.isFinite = true) (hy : y.isFinite = true) :
    (remainder x y).isFinite = true := by
  obtain ⟨negative, m, e, hm⟩ := isFinite_iff.mp hx
  obtain ⟨negative', n, k, hn⟩ := isFinite_iff.mp hy
  unfold remainder
  rw [hm, hn]
  dsimp only
  generalize Fraction.ofBinary _ _ = rest
  cases hrest : rest.toDouble? negative with
  | none => exact hx
  | some r => exact isFinite_of_toDouble? hrest

theorem productFrom_add (a b factor : Nat) (x : Float) :
    productFrom (a + b) factor x = (productFrom a factor x).bind (productFrom b (factor + a)) := by
  induction a generalizing factor x with
  | zero =>
    rw [Nat.zero_add]
    rfl
  | succ a ih =>
    rw [Nat.succ_add, productFrom, productFrom]
    split_ifs
    · rfl
    · rw [ih, show factor + 1 + a = factor + (a + 1) by omega]

/-- The factors of a finite product are finite. -/
theorem finite_of_productFrom {count factor : Nat} (h : productFrom count factor x = some z)
    (hz : z.isFinite = true) : x.isFinite = true := by
  induction count generalizing factor x with
  | zero =>
    cases h
    exact hz
  | succ count ih =>
    rw [productFrom] at h
    split_ifs at h
    exact (finite_of_finite_mul (ih h)).1

/-- The product up to 169 is finite, and the next one is given up. -/
theorem productFrom_last :
    ∃ last, productFrom 168 2 1.0 = some last ∧
      last.isFinite = true ∧ productFrom 1 170 last = none := by
  have hlast : (productFrom 168 2 1.0).any
      (fun last => last.isFinite && (productFrom 1 170 last).isNone) = true := by decide +kernel
  obtain ⟨last, hproduct, hboth⟩ := (Option.any_eq_true _ _).mp hlast
  rw [Bool.and_eq_true, Option.isNone_iff_eq_none] at hboth
  exact ⟨last, hproduct, hboth⟩

/-- Beyond 169 every product is given up, and that of 169 is finite. -/
theorem isFinite_of_factorialOf? {n : Int} (h : factorialOf? n = some z) : z.isFinite = true := by
  obtain ⟨last, hproduct, hfinite, hnext⟩ := productFrom_last
  unfold factorialOf? at h
  generalize (n - 1).toNat = count at h
  by_cases hcount : count ≤ 168
  · rw [show 168 = count + (168 - count) by omega, productFrom_add, h] at hproduct
    exact finite_of_productFrom hproduct hfinite
  · rw [show count = 168 + (1 + (count - 169)) by omega, productFrom_add, hproduct,
      Option.bind_some, productFrom_add, hnext] at h
    cases h

end Reckoner

import Reckoner.Proofs.Number.Finite
import Reckoner.Proofs.Number.Nearest
import Reckoner.Proofs.Run

/-!
# The factorial

The loop of the factorial looks one factor ahead and gives up when that would make the
product infinite. So it either has the product of all numbers up to `n`, multiplied from the
left and finite, or there is a number not above `n` at which the next product is infinite; and
once it gives up it does so in the same round for all greater numbers. Main statement:
`factorial_outcome`.
-/

namespace Reckoner

/-- The product of the whole numbers from two to `n`, multiplied from the left. -/
def doubleProduct (n : Nat) : Float :=
  (List.range' 2 (n - 1)).foldl (fun product k => product * k.toFloat) 1.0

theorem doubleProduct_of_le_one {n : Nat} (h : n ≤ 1) : doubleProduct n = 1.0 := by
  rw [doubleProduct, Nat.sub_eq_zero_of_le h, List.range'_zero, List.foldl_nil]

theorem doubleProduct_succ {n : Nat} (h : 1 ≤ n) :
    doubleProduct (n + 1) = doubleProduct n * (n + 1).toFloat := by
  obtain ⟨m, rfl⟩ := Nat.exists_eq_add_of_le' h
  rw [doubleProduct, doubleProduct, Nat.add_sub_cancel, Nat.add_sub_cancel, List.range'_concat,
    List.foldl_append]
  rw [show 2 + 1 * m = m + 1 + 1 by omega]
  rfl

/-- At some number up to `n` the product with one factor more is infinite. -/
def Overflows (n : Int) : Prop :=
  ∃ k : Nat, 2 ≤ k ∧ k ≤ n ∧ (doubleProduct k * (k + 1).toFloat).isInf = true

/-- What overflows does so for all greater numbers. -/
theorem Overflows.mono {m n : Int} (h : Overflows m) (hle : m ≤ n) : Overflows n := by
  obtain ⟨k, hk, hkm, hinf⟩ := h
  exact ⟨k, hk, hkm.trans hle, hinf⟩

/-! ## The loop -/

/-- From a product up to `n` the loop comes to the product with all further factors, or to a
number at which the next product is infinite. -/
theorem productFrom_doubleProduct {n : Nat} (hn : 1 ≤ n) (count : Nat) :
    productFrom count (n + 1) (doubleProduct n) = some (doubleProduct (n + count)) ∧
        (∀ k, n < k → k ≤ n + count → (doubleProduct k * (k + 1).toFloat).isInf = false) ∨
      productFrom count (n + 1) (doubleProduct n) = none ∧
        ∃ k, n < k ∧ k ≤ n + count ∧ (doubleProduct k * (k + 1).toFloat).isInf = true := by
  induction count generalizing n with
  | zero => exact .inl ⟨rfl, fun k hlow hhigh => absurd hhigh (by omega)⟩
  | succ count ih =>
    -- the round multiplies by `n + 1` and looks ahead to `n + 2`
    rw [productFrom, ← doubleProduct_succ hn]
    cases hinf : (doubleProduct (n + 1) * (n + 1 + 1).toFloat).isInf with
    | true => exact .inr ⟨if_pos rfl, n + 1, by omega, by omega, hinf⟩
    | false =>
      rw [if_neg Bool.false_ne_true, show n + (count + 1) = n + 1 + count by omega]
      obtain ⟨hproduct, hall⟩ | ⟨hproduct, k, hlow, hhigh, hk⟩ := ih (show 1 ≤ n + 1 by omega)
      · refine .inl ⟨hproduct, fun k hlow hhigh => ?_⟩
        obtain rfl | hlt := Nat.eq_or_lt_of_le (Nat.succ_le_of_lt hlow)
        · exact hinf
        · exact hall k hlt hhigh
      · exact .inr ⟨hproduct, k, by omega, hhigh, hk⟩

theorem factorialOf?_cases (n : Int) :
    factorialOf? n = some (doubleProduct n.toNat) ∧ ¬Overflows n ∨
      factorialOf? n = none ∧ Overflows n := by
  have hloop := productFrom_doubleProduct (Nat.le_refl 1) (n - 1).toNat
  rw [doubleProduct_of_le_one (Nat.le_refl 1)] at hloop
  obtain ⟨hproduct, hall⟩ | ⟨hproduct, k, hlow, hhigh, hk⟩ := hloop
  · refine .inl ⟨?_, ?_⟩
    · rw [factorialOf?, hproduct]
      obtain hle | hlt := le_or_gt n 1
      · rw [doubleProduct_of_le_one (by omega), doubleProduct_of_le_one (by omega)]
      · rw [show 1 + (n - 1).toNat = n.toNat by omega]
    · rintro ⟨k, hlow, hhigh, hk⟩
      rw [hall k (by omega) (by omega)] at hk
      contradiction
  · exact .inr ⟨hproduct, k, by omega, by omega, hk⟩

theorem factorialOf?_eq_none_iff {n : Int} : factorialOf? n = none ↔ Overflows n := by
  obtain ⟨hproduct, hno⟩ | ⟨hproduct, hover⟩ := factorialOf?_cases n
  · simp [hproduct, hno]
  · simp [hproduct, hover]

/-- The products up to 169 are finite with one factor more, and that up to 170 is not. -/
theorem overflows_iff {n : Int} : Overflows n ↔ 170 ≤ n := by
  obtain ⟨last, hproduct, hlast⟩ := productFrom_last
  have hbelow : ¬Overflows 169 := by
    rw [← factorialOf?_eq_none_iff]
    intro hnone
    cases hproduct.symm.trans hnone
  have habove : Overflows 170 := by
    rw [← factorialOf?_eq_none_iff]
    change productFrom (168 + 1) 2 1.0 = none
    rw [productFrom_add, hproduct]
    exact hlast.2
  constructor
  · intro h
    by_contra hlt
    exact hbelow (h.mono (by omega))
  · exact habove.mono

/-! ## Rounds of the loop -/

/-- The loop with the number of rounds that it takes. -/
def productRounds : Nat → Nat → Float → Option Float × Nat
  | 0, _, product => (some product, 0)
  | count + 1, factor, product =>
    let product := product * factor.toFloat
    if (product * (factor + 1).toFloat).isInf then (none, 1)
    else
      let rest := productRounds count (factor + 1) product
      (rest.1, rest.2 + 1)

/-- The rounds that the factorial of `n` takes. -/
def factorialRounds (n : Int) : Nat := (productRounds (n - 1).toNat 2 1.0).2

theorem productRounds_fst (count factor : Nat) (x : Float) :
    (productRounds count factor x).1 = productFrom count factor x := by
  induction count generalizing factor x with
  | zero => rfl
  | succ count ih =>
    rw [productRounds, productFrom]
    split_ifs
    · rfl
    · exact ih ..

theorem productRounds_snd_le (count factor : Nat) (x : Float) :
    (productRounds count factor x).2 ≤ count := by
  induction count generalizing factor x with
  | zero => exact Nat.le_refl 0
  | succ count ih =>
    rw [productRounds]
    split_ifs
    · exact Nat.le_add_left 1 count
    · exact Nat.succ_le_succ (ih ..)

/-- A loop that gives up does not see how many factors are left. -/
theorem productRounds_add {a factor : Nat} {x : Float} (h : productFrom a factor x = none)
    (b : Nat) : productRounds (a + b) factor x = productRounds a factor x := by
  induction a generalizing factor x with
  | zero => cases h
  | succ a ih =>
    rw [productFrom] at h
    rw [Nat.succ_add, productRounds, productRounds]
    split_ifs at h ⊢
    · rfl
    · rw [ih h]

/-- Once the product overflows a greater number takes no more rounds. -/
theorem factorialRounds_of_le {m n : Int} (h : Overflows m) (hle : m ≤ n) :
    factorialRounds n = factorialRounds m := by
  have hcount : (n - 1).toNat = (m - 1).toNat + (n - m).toNat := by
    have := overflows_iff.mp h
    omega
  rw [factorialRounds, factorialRounds, hcount, productRounds_add (factorialOf?_eq_none_iff.2 h)]

theorem factorialRounds_le (n : Int) : factorialRounds n ≤ 169 := by
  obtain hle | hlt := le_or_gt n 170
  · exact (productRounds_snd_le ..).trans (by omega)
  · rw [factorialRounds_of_le (overflows_iff.mpr (le_refl 170)) hlt.le]
    exact productRounds_snd_le ..

/-! ## The outcome -/

variable {σ : Type}

/-- How the factorial of `x` ends at a state, where `n` is the whole number nearest to `x`. -/
structure FactorialEnds (x : Float) (n : Int) (s : Progress σ) : Prop where
  succeeds : ¬Overflows n → Eval.factorial x s = .ok (doubleProduct n.toNat) s ∧
    (doubleProduct n.toNat).isFinite = true
  fails : Overflows n → ∃ problem : Problem, problem.kind = .arithmetic ∧
    Eval.factorial x s = .ok 1.0 (s.add (.problem problem))

theorem factorialEnds {x : Float} {n : Int} (h : RoundsTo x n) (s : Progress σ) :
    FactorialEnds x n s := by
  have hround := roundToInt?_eq_some_iff.2 h
  obtain ⟨hproduct, hno⟩ | ⟨hproduct, hover⟩ := factorialOf?_cases n
  · refine ⟨fun _ => ⟨?_, isFinite_of_factorialOf? hproduct⟩, fun hover => absurd hover hno⟩
    simp only [Eval.factorial, hround, hproduct]
    rfl
  · refine ⟨fun hno => absurd hover hno, fun _ => ⟨.factorialTooLarge n, rfl, ?_⟩⟩
    simp only [Eval.factorial, hround, hproduct]
    rfl

/-- **The factorial overflows exactly and for good.** Let `n` be the whole number nearest to
a finite `x`. The factorial of `x` is the finite product of all numbers up to `n`, multiplied
from the left, with no entry in the ledger; or there is a number up to `n` at which one factor
more makes the product infinite, and then one arithmetic problem is entered and the value is
one. That is so exactly from 170 on, and the rounds of the loop are the same for all such
numbers; they are counted along the loop, which comes to the same with the count. -/
theorem factorial_outcome {x : Float} (hx : x.isFinite = true) (s : Progress σ) :
    ∃ n, RoundsTo x n ∧ FactorialEnds x n s ∧
      (n ≤ 1 → doubleProduct n.toNat = 1.0) ∧
      (Overflows n ↔ 170 ≤ n) ∧
      (Overflows n → ∀ m, n ≤ m → Overflows m ∧ factorialRounds m = factorialRounds n) ∧
      (∀ m, (productRounds (m - 1).toNat 2 1.0).1 = factorialOf? m) ∧ factorialRounds n ≤ 169 := by
  obtain ⟨n, hround⟩ : ∃ n, roundToInt? x = some n := by
    rw [← Option.ne_none_iff_exists', ne_eq, roundToInt?_eq_none_iff, hx]
    exact Bool.noConfusion
  have hn := roundToInt?_eq_some_iff.1 hround
  exact ⟨n, hn, factorialEnds hn s, fun hle => doubleProduct_of_le_one (by omega), overflows_iff,
    fun hover m hle => ⟨hover.mono hle, factorialRounds_of_le hover hle⟩,
    fun m => productRounds_fst (m - 1).toNat 2 1.0, factorialRounds_le n⟩

/-- Half of an odd number goes to the even neighbour, which is the first that overflows. -/
theorem factorial_outcome_half :
    (169.5 : Float).isFinite = true ∧ Overflows 170 ∧
      FactorialEnds 169.5 170 ({ dice := () } : Progress Unit) := by
  have hfinite : (169.5 : Float).isFinite = true := by decide
  have hround : roundToInt? 169.5 = some 170 := by decide +kernel
  obtain ⟨n, hn, hends, -, hover, -⟩ :=
    factorial_outcome hfinite ({ dice := () } : Progress Unit)
  have heq : n = 170 := Option.some.inj ((roundToInt?_eq_some_iff.2 hn).symm.trans hround)
  rw [heq] at hends hover
  exact ⟨hfinite, hover.2 (le_refl 170), hends⟩

end Reckoner

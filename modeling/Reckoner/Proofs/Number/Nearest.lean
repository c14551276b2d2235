import Reckoner.Proofs.Number.Word

/-!
# The whole number nearest to a double

Rounding goes through exact numbers: the number of a finite double is a rational one, and the
whole number nearest to it is the one at a distance of a half at most, which is even where
there are two (`roundToInt?_eq_some_iff`).
-/

namespace Reckoner

/-- The number that a double stands for; infinities and what is undefined stand for none. -/
def exactly? (x : Float) : Option ℚ :=
  match denote x with
  | .finite negative m e => some ((if negative then -1 else 1) * (m * (2 : ℚ) ^ e))
  | _ => none

theorem exactly?_eq_none_iff {x : Float} : exactly? x = none ↔ x.isFinite = false := by
  rw [← Bool.not_eq_true, isFinite_iff, exactly?]
  cases denote x <;> simp

/-- `n` is the whole number nearest to `q`, and even if there are two. -/
structure NearestTo (q : ℚ) (n : Int) : Prop where
  half : |q - n| ≤ 1 / 2
  tie : |q - n| = 1 / 2 → n % 2 = 0

namespace NearestTo

variable {q : ℚ} {m n : Int}

/-- There is no other: of two neighbours at the same distance only one is even. -/
theorem le (hm : NearestTo q m) (hn : NearestTo q n) : n ≤ m := by
  by_contra hlt
  have hstep : (m : ℚ) + 1 ≤ n := by exact_mod_cast not_le.mp hlt
  have hlow := abs_le.mp hm.half
  have hhigh := abs_le.mp hn.half
  have hnext : n = m + 1 := by
    have : (n : ℚ) = (m + 1 : Int) := by push_cast; linarith
    exact_mod_cast this
  have hm' : q - m = 1 / 2 := by linarith
  have hn' : q - n = -(1 / 2) := by linarith
  have heven := hm.tie (by rw [hm']; norm_num)
  have heven' := hn.tie (by rw [hn']; norm_num)
  omega

theorem eq (hm : NearestTo q m) (hn : NearestTo q n) : m = n := le_antisymm (hn.le hm) (hm.le hn)

theorem neg (h : NearestTo q n) : NearestTo (-q) (-n) := by
  have habs : |-q - (-n : Int)| = |q - n| := by
    rw [← abs_neg]
    push_cast
    ring_nf
  refine ⟨habs.le.trans h.half, fun htie => ?_⟩
  have heven := h.tie (habs.symm.trans htie)
  omega

end NearestTo

/-- A fraction is rounded to the whole number nearest to it. -/
theorem Fraction.nearestTo_round (f : Fraction) : NearestTo f.rat f.round := by
  have hden : (0 : ℚ) < f.den := by exact_mod_cast f.den_pos
  obtain ⟨hup, hdown⟩ := roundDiv_near f.num f.den_pos
  have hsplit : f.rat - (f.round : Int) = (f.num - f.round * f.den) / f.den := by
    rw [rat, sub_div, mul_div_cancel_right₀ _ hden.ne']
    rfl
  have hupq : 2 * ((f.round : ℚ) * f.den) ≤ 2 * f.num + f.den := by exact_mod_cast hup
  have hdownq : 2 * (f.num : ℚ) ≤ 2 * (f.round * f.den) + f.den := by exact_mod_cast hdown
  refine ⟨?_, fun htie => ?_⟩
  · rw [hsplit, abs_le, le_div_iff₀ hden, div_le_iff₀ hden]
    constructor <;> linarith
  · rw [hsplit] at htie
    rcases (abs_eq (by norm_num : (0 : ℚ) ≤ 1 / 2)).mp htie with hhalf | hhalf
    · -- halfway above the whole number chosen
      rw [div_eq_iff hden.ne'] at hhalf
      have hnum : 2 * f.num = (2 * f.round + 1) * f.den := by
        have : 2 * (f.num : ℚ) = (2 * f.round + 1) * f.den := by linarith
        exact_mod_cast this
      have hround : f.round = f.round + f.round % 2 := roundDiv_of_tie f.den_pos hnum
      omega
    · -- halfway below it
      rw [div_eq_iff hden.ne'] at hhalf
      have hpos : f.round ≠ 0 := by
        intro hzero
        rw [hzero] at hhalf
        have hnum : (0 : ℚ) ≤ f.num := Nat.cast_nonneg _
        push_cast at hhalf
        linarith
      obtain ⟨w, hw⟩ := Nat.exists_eq_succ_of_ne_zero hpos
      have hnum : 2 * f.num = (2 * w + 1) * f.den := by
        have : 2 * (f.num : ℚ) = (2 * w + 1) * f.den := by
          rw [hw] at hhalf
          push_cast at hhalf
          linarith
        exact_mod_cast this
      have hround : f.round = w + w % 2 := roundDiv_of_tie f.den_pos hnum
      omega

/-- A double stands for a number, and `n` is the whole number nearest to that. -/
def RoundsTo (x : Float) (n : Int) : Prop := ∃ q, exactly? x = some q ∧ NearestTo q n

/-- **Rounding a double.** A double is rounded to the whole number nearest to the number that
it stands for, a half going to the even one. -/
theorem roundToInt?_eq_some_iff {x : Float} {n : Int} :
    roundToInt? x = some n ↔ RoundsTo x n := by
  unfold roundToInt? wholeNear RoundsTo exactly?
  cases denote x with
  | undefined => simp
  | infinite negative => simp
  | finite negative m e =>
    have hnearest := (Fraction.ofBinary m e).nearestTo_round
    rw [Fraction.rat_ofBinary] at hnearest
    have hsigned : NearestTo ((if negative then -1 else 1) * (m * (2 : ℚ) ^ e))
        (signedInt negative (Fraction.ofBinary m e).round) := by
      cases negative with
      | false => simpa [signedInt] using hnearest
      | true => simpa [signedInt] using hnearest.neg
    simp only [Option.some.injEq, exists_eq_left']
    constructor
    · rintro rfl
      exact hsigned
    · exact fun h => hsigned.eq h

theorem roundToInt?_eq_none_iff {x : Float} : roundToInt? x = none ↔ x.isFinite = false := by
  rw [← exactly?_eq_none_iff]
  unfold roundToInt? wholeNear exactly?
  cases denote x <;> simp

end Reckoner

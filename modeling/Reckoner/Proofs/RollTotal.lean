import Reckoner.Proofs.Draws
import Reckoner.Proofs.Number.Nearest
import Reckoner.Proofs.Outcome

/-!
# Which rolls are refused, and what the others come to

A roll checks its number of dice and its number of faces before it draws anything; what it
refuses can be told from the exact numbers of its operands (`TooManyDice`, `NoFaces`). A roll
that is not refused draws so many dice one by one, however many of them its line shows, and its
total is their sum with the sign of the number of dice (`rollTotal_eq`).
-/

namespace Reckoner

open Eval

variable {σ : Type} {stack : Stack}

/-! ## Refusals -/

/-- The number of dice is no number, or the whole number nearest to it is beyond the limit. -/
def TooManyDice (limits : Limits) (count : Float) : Prop :=
  count.isFinite = false ∨ ∃ n, RoundsTo count n ∧ limits.maxDice < n.natAbs

/-- The number of faces is no number, or the whole number nearest to it is below one. -/
def NoFaces (sides : Float) : Prop :=
  sides.isFinite = false ∨ ∃ n, RoundsTo sides n ∧ n < 1

theorem RoundsTo.eq {x : Float} {m n : Int} (hm : RoundsTo x m) (hn : RoundsTo x n) : m = n :=
  Option.some.inj ((roundToInt?_eq_some_iff.mpr hm).symm.trans (roundToInt?_eq_some_iff.mpr hn))

/-- An operand that rounds to a number which is not refused is not refused. -/
theorem RoundsTo.not_refused {x : Float} {n : Int} {refused : Int → Prop} (h : RoundsTo x n)
    (hn : ¬refused n) : ¬(x.isFinite = false ∨ ∃ m, RoundsTo x m ∧ refused m) := by
  rintro (hinfinite | ⟨m, hm, hrefused⟩)
  · rw [← roundToInt?_eq_none_iff, roundToInt?_eq_some_iff.mpr h] at hinfinite
    cases hinfinite
  · exact hn (hm.eq h ▸ hrefused)

theorem RoundsTo.not_tooMany {limits : Limits} {count : Float} {n : Int} (h : RoundsTo count n)
    (hmost : (n.natAbs : Int) ≤ limits.maxDice) : ¬TooManyDice limits count :=
  h.not_refused (not_lt.mpr hmost)

theorem RoundsTo.not_noFaces {sides : Float} {n : Int} (h : RoundsTo sides n) (hleast : 1 ≤ n) :
    ¬NoFaces sides :=
  h.not_refused (not_lt.mpr hleast)

theorem diceCount_of_tooMany {limits : Limits} {count : Float} (h : TooManyDice limits count) :
    diceCount limits count = .error (.tooManyDice count limits.maxDice) := by
  unfold diceCount
  rcases h with hinfinite | ⟨n, hn, hmost⟩
  · rw [roundToInt?_eq_none_iff.mpr hinfinite]
  · rw [roundToInt?_eq_some_iff.mpr hn]
    exact if_pos hmost

theorem diceCount_of_not_tooMany {limits : Limits} {count : Float}
    (h : ¬TooManyDice limits count) :
    ∃ n, RoundsTo count n ∧ (n.natAbs : Int) ≤ limits.maxDice ∧ diceCount limits count = .ok n := by
  unfold diceCount
  cases hround : roundToInt? count with
  | none => exact absurd (.inl (roundToInt?_eq_none_iff.mp hround)) h
  | some n =>
    have hn := roundToInt?_eq_some_iff.mp hround
    have hmost : ¬limits.maxDice < n.natAbs := fun hmost => h (.inr ⟨n, hn, hmost⟩)
    exact ⟨n, hn, not_lt.mp hmost, if_neg hmost⟩

theorem faceCount_of_noFaces {sides : Float} (h : NoFaces sides) :
    faceCount sides = .error (.noFaces sides) := by
  unfold faceCount
  rcases h with hinfinite | ⟨n, hn, hless⟩
  · rw [roundToInt?_eq_none_iff.mpr hinfinite]
  · rw [roundToInt?_eq_some_iff.mpr hn]
    exact if_pos hless

theorem faceCount_of_not_noFaces {sides : Float} (h : ¬NoFaces sides) :
    ∃ faces : Nat, RoundsTo sides faces ∧ 1 ≤ faces ∧ faceCount sides = .ok faces := by
  unfold faceCount
  cases hround : roundToInt? sides with
  | none => exact absurd (.inl (roundToInt?_eq_none_iff.mp hround)) h
  | some n =>
    have hn := roundToInt?_eq_some_iff.mp hround
    have hless : ¬n < 1 := fun hless => h (.inr ⟨n, hn, hless⟩)
    have hnat : ((n.toNat : Nat) : Int) = n := Int.toNat_of_nonneg (by omega)
    exact ⟨n.toNat, hnat.symm ▸ hn, by omega, if_neg hless⟩

/-! ## Totals -/

/-- The values of the dice that a roll draws. -/
def drawnBy (setting : Setting σ) (n : Int) (faces : Nat) (s : Progress σ stack) : List Nat :=
  (setting.source.drawMany faces n.natAbs s.dice).1

/-- Those among them that the line of the roll shows. -/
def shownBy (setting : Setting σ) (n : Int) (faces : Nat) (s : Progress σ stack) : List Nat :=
  affordable setting.limits s.ledger.shown (rollHead n faces).length (drawnBy setting n faces s)

section Drawn

variable (setting : Setting σ) (n : Int) (faces : Nat) (s : Progress σ stack)

theorem length_drawnBy : (drawnBy setting n faces s).length = n.natAbs :=
  length_drawMany setting.source faces n.natAbs s.dice

variable {faces} in
theorem mem_drawnBy (h : 1 ≤ faces) : ∀ value ∈ drawnBy setting n faces s,
    1 ≤ value ∧ value ≤ faces := mem_drawMany setting.source h

/-- The total is the sum of all dice, negated for a negative number of them. -/
theorem rollTotal_eq :
    rollTotal setting n faces s = n.sign * ((drawnBy setting n faces s).sum : Nat) := by
  rw [rollTotal, signedInt, ← List.sum_eq_foldl]
  rcases lt_trichotomy n 0 with hneg | rfl | hpos
  · rw [decide_eq_true hneg, if_pos rfl, Int.sign_eq_neg_one_of_neg hneg, neg_one_mul]
    rfl
  · rfl
  · rw [decide_eq_false (by omega), if_neg Bool.false_ne_true, Int.sign_eq_one_of_pos hpos, one_mul]
    rfl

theorem afterRoll_eq :
    afterRoll setting n faces s =
      { s with
        ledger :=
          { s.ledger with
            events := s.ledger.events ++ [.roll (.rolled n faces (shownBy setting n faces s)
              ((shownBy setting n faces s).length < (drawnBy setting n faces s).length)
              (n.sign * ((drawnBy setting n faces s).sum : Nat)))]
            shown := s.ledger.shown + (shownBy setting n faces s).length }
        dice := (setting.source.drawMany faces n.natAbs s.dice).2 } := by
  rw [← rollTotal_eq]
  rfl

end Drawn

/-- So many dice come to at least their number and at most as often the number of faces. -/
theorem natAbs_total_mem {n : Int} {faces : Nat} {values : List Nat}
    (hlength : values.length = n.natAbs) (hvalues : ∀ value ∈ values, 1 ≤ value ∧ value ≤ faces) :
    n.natAbs ≤ (n.sign * (values.sum : Nat)).natAbs ∧
      (n.sign * (values.sum : Nat)).natAbs ≤ n.natAbs * faces := by
  have hleast : values.length ≤ values.sum := by
    simpa using List.card_nsmul_le_sum values 1 fun value h => (hvalues value h).1
  have hmost : values.sum ≤ values.length * faces :=
    List.sum_le_card_nsmul values faces fun value h => (hvalues value h).2
  rw [hlength] at hleast hmost
  rw [Int.natAbs_mul, Int.natAbs_natCast]
  rcases eq_or_ne n 0 with rfl | hn
  · simp
  · rw [Int.natAbs_sign_of_ne_zero hn, one_mul]
    exact ⟨hleast, hmost⟩

/-- A roll that is not refused draws the dice of the whole numbers nearest to its operands. -/
theorem roll_of_valid {limits : Limits} {count sides : Float} (hcount : ¬TooManyDice limits count)
    (hfaces : ¬NoFaces sides) :
    ∃ (n : Int) (faces : Nat), RoundsTo count n ∧ (n.natAbs : Int) ≤ limits.maxDice ∧
      RoundsTo sides faces ∧ 1 ≤ faces ∧
      ∀ {τ : Type} {stack : Stack} (setting : Setting τ), setting.limits = limits →
        (roll setting count sides : Eval τ Float stack) = rollDice setting n faces := by
  obtain ⟨n, hn, hmost, hcheck⟩ := diceCount_of_not_tooMany hcount
  obtain ⟨faces, hround, hleast, hcheck'⟩ := faceCount_of_not_noFaces hfaces
  refine ⟨n, faces, hn, hmost, hround, hleast, fun setting hlimits => ?_⟩
  rw [roll, hlimits, hcheck, hcheck']

/-- **Dice totals.** For every two doubles, in every state: where the number of dice or the
number of faces is refused, there is one arithmetic problem for either, the one about the number
of dice first, the answer is one, and nothing else happens. Otherwise as many dice are drawn as
the first operand rounds to, sign aside, each with as many faces as the second one rounds to;
exactly one line is entered, whose total is the sum of all dice with the sign of their number;
and the answer is the double of the total, unless it is beyond the largest one. -/
theorem roll_totals (setting : Setting σ) (count sides : Float) (s : Progress σ) :
    (Problem.tooManyDice count setting.limits.maxDice).kind = .arithmetic ∧
    (Problem.noFaces sides).kind = .arithmetic ∧
    (TooManyDice setting.limits count → NoFaces sides →
      roll setting count sides s = .ok 1.0
        ((s.add (.problem (.tooManyDice count setting.limits.maxDice))).add
          (.problem (.noFaces sides)))) ∧
    (TooManyDice setting.limits count → ¬NoFaces sides →
      roll setting count sides s =
        .ok 1.0 (s.add (.problem (.tooManyDice count setting.limits.maxDice)))) ∧
    (¬TooManyDice setting.limits count → NoFaces sides →
      roll setting count sides s = .ok 1.0 (s.add (.problem (.noFaces sides)))) ∧
    (¬TooManyDice setting.limits count → ¬NoFaces sides →
      ∃ (n : Int) (faces : Nat) (values shown : List Nat) (cut : Bool) (dice : σ),
        RoundsTo count n ∧ RoundsTo sides faces ∧
        values.length = n.natAbs ∧ (∀ value ∈ values, 1 ≤ value ∧ value ≤ faces) ∧
        (∀ v, v.project = s → (lastState (roll setting.recording count sides v)).dice =
          (dice, v.dice.2 ++ values.map (faces, ·))) ∧
        let total := n.sign * (values.sum : Nat)
        let ledger : Ledger :=
          { s.ledger with
            events := s.ledger.events ++ [.roll (.rolled n faces shown cut total)]
            shown := s.ledger.shown + shown.length }
        n.natAbs ≤ total.natAbs ∧ total.natAbs ≤ n.natAbs * faces ∧
        (total.natAbs < Fraction.overflowFrom → ∃ x, intToDouble? total = some x ∧
          roll setting count sides s = .ok x { s with ledger, dice }) ∧
        (Fraction.overflowFrom ≤ total.natAbs →
          roll setting count sides s = .error .totalTooLarge { s with ledger, dice })) := by
  refine ⟨rfl, rfl, fun hcount hfaces => ?_, fun hcount hfaces => ?_, fun hcount hfaces => ?_,
    fun hcount hfaces => ?_⟩
  · rw [roll, diceCount_of_tooMany hcount, faceCount_of_noFaces hfaces]
    rfl
  · obtain ⟨faces, -, -, hcheck⟩ := faceCount_of_not_noFaces hfaces
    rw [roll, diceCount_of_tooMany hcount, hcheck]
    rfl
  · obtain ⟨n, -, -, hcheck⟩ := diceCount_of_not_tooMany hcount
    rw [roll, hcheck, faceCount_of_noFaces hfaces]
    rfl
  · obtain ⟨n, faces, hn, -, hround, hleast, hroll⟩ := roll_of_valid hcount hfaces
    have hlength := length_drawnBy setting n faces s
    have hvalues := mem_drawnBy setting n s hleast
    obtain ⟨hlow, hhigh⟩ := natAbs_total_mem hlength hvalues
    have hrun := rollDice_apply setting n faces s
    rw [afterRoll_eq, rollTotal_eq, ← hroll setting rfl] at hrun
    refine ⟨n, faces, drawnBy setting n faces s, shownBy setting n faces s,
      decide ((shownBy setting n faces s).length < (drawnBy setting n faces s).length),
      (setting.source.drawMany faces n.natAbs s.dice).2, hn, hround, hlength, hvalues, ?_, hlow,
      hhigh, fun hbelow => ?_, fun hover => ?_⟩
    · rintro v rfl
      rw [hroll setting.recording rfl, lastState_rollDice]
      exact congrArg Prod.snd (setting.source.drawMany_recording faces n.natAbs v.dice)
    · obtain ⟨x, hx⟩ := Option.ne_none_iff_exists'.mp
        (mt (intToDouble?_eq_none_iff _).mp (not_le.mpr hbelow))
      rw [hx] at hrun
      exact ⟨x, hx, hrun⟩
    · rw [(intToDouble?_eq_none_iff _).mpr hover] at hrun
      exact hrun

/-- Halves go to the even number: two dice of six faces, with a negative total. -/
theorem roll_totals_negative :
    ¬TooManyDice usual.limits (-2.5) ∧ ¬NoFaces 6.5 ∧ RoundsTo (-2.5) (-2) ∧ RoundsTo 6.5 6 ∧
      ∃ (values shown : List Nat) (cut : Bool) (u : Progress Feed),
        values.length = 2 ∧
        u.ledger.events = [.roll (.rolled (-2) 6 shown cut (-1 * (values.sum : Nat)))] ∧
        roll usual (-2.5) 6.5 { dice := .cycle [3, 1, 4] 0 } = .ok (-6.0) u := by
  have hcount : RoundsTo (-2.5) (-2) := roundToInt?_eq_some_iff.mp (by decide +kernel)
  have hsides : RoundsTo 6.5 6 := roundToInt?_eq_some_iff.mp (by decide +kernel)
  have hdice : ¬TooManyDice usual.limits (-2.5) := hcount.not_tooMany (by decide)
  have hfaces : ¬NoFaces 6.5 := hsides.not_noFaces (by decide)
  obtain ⟨-, -, -, -, -, hvalid⟩ := roll_totals usual (-2.5) 6.5 { dice := .cycle [3, 1, 4] 0 }
  obtain ⟨n, faces, values, shown, cut, dice, hn, hround, hlength, -, -, -, hmost, hbelow, -⟩ :=
    hvalid hdice hfaces
  obtain rfl : n = -2 := hn.eq hcount
  obtain rfl : faces = 6 := Int.ofNat_inj.mp (hround.eq hsides)
  have hsmall : (Int.sign (-2) * (values.sum : Nat)).natAbs < Fraction.overflowFrom :=
    hmost.trans_lt (lt_trans (by decide) (Fraction.pow_lt_overflowFrom (k := 4) (by decide)))
  obtain ⟨x, -, hrun⟩ := hbelow hsmall
  have hanswer : ∃ u : Progress Feed, roll usual (-2.5) 6.5 { dice := .cycle [3, 1, 4] 0 } = .ok (-6.0) u ∧
      u.failed = false := by decide +kernel
  obtain ⟨u, hu, -⟩ := hanswer
  obtain ⟨rfl, rfl⟩ := EStateM.Result.ok.inj (hrun.symm.trans hu)
  exact ⟨hdice, hfaces, hcount, hsides, values, shown, cut, _, hlength, rfl, hrun⟩

end Reckoner

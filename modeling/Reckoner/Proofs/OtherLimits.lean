import Reckoner.Proofs.Draws
import Reckoner.Proofs.Homomorphism

/-!
# Expressions under other limits

Wider limits leave an evaluation that succeeds as it is (`evaluateExpression_wider`). Budgets
for roll lines bear on nothing but how many values the lines show, whether or not the
evaluation succeeds (`evaluateExpression_budgets`). Draws are compared by running both
evaluations with a record.
-/

namespace Reckoner

open Eval

variable {σ : Type}

/-- The same dice under other limits. -/
def Setting.under (setting : Setting σ) (limits : Limits) : Setting σ := { setting with limits }

/-! ## Wider limits -/

/-- Limits on dice, depth and length that are wider limits' equals at most, with the same
budgets for roll lines. -/
structure Limits.Within (limits wider : Limits) : Prop where
  maxDice : limits.maxDice ≤ wider.maxDice
  maxDepth : limits.maxDepth ≤ wider.maxDepth
  maxLength : limits.maxLength ≤ wider.maxLength
  rollLineLength : wider.rollLineLength = limits.rollLineLength
  shownDice : wider.shownDice = limits.shownDice

theorem Limits.Within.varied {setting : Setting σ} {wider : Limits}
    (h : setting.limits.Within wider) :
    Varied setting (setting.under wider) (fun _ => True) True where
  source := rfl
  dice := .inr ⟨h.maxDice, fun _ _ => trivial⟩
  budgets _ := ⟨h.rollLineLength, h.shownDice⟩

theorem evaluateExpression_of_within {setting : Setting σ} {wider : Limits} {stack : Stack}
    (hwithin : setting.limits.Within wider) {dice after : σ} {expression : Text} {e : Evaluation}
    (h : evaluateExpression setting dice expression stack = .ok (e, after))
    (he : e.failed = false) :
    evaluateExpression (setting.under wider) dice expression stack = .ok (e, after) := by
  obtain ⟨levels, u, hlevels, hrun, hu, hfinite, hledger, hafter⟩ := exists_run_of_success h he
  obtain ⟨hne, hlength⟩ := short_of_success h he
  obtain ⟨extra, hdeeper⟩ : ∃ extra, wider.maxDepth.toNat = levels + 1 + extra := by
    have hdepth := hwithin.maxDepth
    exact ⟨wider.maxDepth.toNat - (levels + 1), by omega⟩
  have hfollows := @follows_descend σ stack _ _ _ _ hwithin.varied (fun _ => trivial) (levels + 1)
    extra .whole expression.withoutBlanks
  obtain ⟨u', hrun', htracks⟩ := hfollows.run (.start dice) hrun hu
  have htop : topmost (setting.under wider) .whole expression.withoutBlanks { dice } =
      .ok e.value u' := by
    rw [topmost, show (setting.under wider).limits.maxDepth.toNat = levels + 1 + extra from hdeeper]
    exact hrun'
  rw [evaluateExpression_of_run hne (le_trans hlength hwithin.maxLength) htop hfinite,
    htracks.ledger_eq, htracks.alike.dice, hledger, hafter]
  rw [← expression_of_evaluateExpression h]

/-- **Wider limits.** An expression that is evaluated without a problem is evaluated in the same
way, with the same value, entries and draws, if more dice, levels and characters are allowed. -/
theorem evaluateExpression_wider {setting : Setting σ} {wider : Limits} {stack : Stack}
    (hwithin : setting.limits.Within wider) {dice after : σ} {expression : Text} {e : Evaluation}
    (h : evaluateExpression setting dice expression stack = .ok (e, after))
    (he : e.failed = false) :
    evaluateExpression (setting.under wider) dice expression stack = .ok (e, after) ∧
      draws (setting.under wider) dice expression stack =
        draws setting dice expression stack := by
  have hwider := evaluateExpression_of_within hwithin h he
  have hrecording : evaluateExpression (setting.under wider).recording (dice, []) expression stack =
      .ok (e, after, draws setting dice expression stack) :=
    @evaluateExpression_of_within _ setting.recording wider stack hwithin _ _ _ _
      (evaluateExpression_recording h) he
  exact ⟨hwider, draws_eq_of_recording hwider hrecording⟩

/-- Limits that allow two dice and no more than seven characters on four levels. -/
def narrow : Setting Feed where
  source := Feed.source
  limits := { maxDice := 2, maxDepth := 4, maxLength := 7 }

theorem evaluateExpression_wider_narrow :
    narrow.limits.Within {} ∧
      ∃ e, evaluateExpression narrow .high ['2', 'd', '6', '+', '(', '1', ')'] = .ok (e, .high) ∧
        e.failed = false ∧
        evaluateExpression (narrow.under {}) .high ['2', 'd', '6', '+', '(', '1', ')'] =
          .ok (e, .high) ∧
        draws (narrow.under {}) .high ['2', 'd', '6', '+', '(', '1', ')'] = [(6, 6), (6, 6)] := by
  have hwithin : narrow.limits.Within {} :=
    ⟨by decide, by decide, by decide, by decide, by decide⟩
  have h : evaluateExpression narrow .high ['2', 'd', '6', '+', '(', '1', ')'] =
      .ok ({ expression := ['2', 'd', '6', '+', '(', '1', ')']
             value := 13.0
             ledger :=
              { events := [.step (.groupValue ['(', '1', ')'] 1.0),
                  .roll (.rolled 2 6 [6, 6] false 12),
                  .step (.binary 2.0 'd' 6.0 12.0 ['2', 'd', '6']),
                  .step (.binary 12.0 '+' 1.0 13.0 ['2', 'd', '6', '+', '1', '.', '0'])]
                shown := 2 } }, .high) := by decide +kernel
  obtain ⟨hwider, hdraws⟩ := evaluateExpression_wider hwithin h (by decide +kernel)
  exact ⟨hwithin, _, h, by decide +kernel, hwider, hdraws.trans (by decide +kernel)⟩

/-! ## Other budgets -/

/-- The same roll, of whose values one line shows the first few and the other one maybe more. -/
inductive RollLine.SameRoll : RollLine → RollLine → Prop where
  | rolled {count faces total : Int} {shown shown' : List Nat} (cut cut' : Bool)
    (h : shown <+: shown' ∨ shown' <+: shown) :
    SameRoll (.rolled count faces shown cut total) (.rolled count faces shown' cut' total)
  | stated (line : String) : SameRoll (.stated line) (.stated line)

theorem RollLine.SameRoll.refl (line : RollLine) : line.SameRoll line := by
  cases line with
  | rolled count faces shown cut total => exact .rolled cut cut (.inl List.prefix_rfl)
  | stated line => exact .stated line

/-- Two results of an evaluation that agree but for what roll lines show. -/
inductive SameButShown : Except Fault (Evaluation × σ) → Except Fault (Evaluation × σ) → Prop where
  | fault (fault : Fault) : SameButShown (.error fault) (.error fault)
  | returned {e e' : Evaluation} (after : σ) (hexpression : e'.expression = e.expression)
    (hvalue : e'.value = e.value) (hproblems : e'.ledger.problems = e.ledger.problems)
    (hsteps : e'.ledger.steps = e.ledger.steps)
    (hrolls : List.Forall₂ RollLine.SameRoll e.ledger.rolls e'.ledger.rolls) :
    SameButShown (.ok (e, after)) (.ok (e', after))

namespace Matching

variable {xs ys : List Event}

theorem rolls (h : Matching xs ys) :
    List.Forall₂ RollLine.SameRoll (xs.filterMap Event.roll?) (ys.filterMap Event.roll?) := by
  induction h with
  | nil => exact .nil
  | @cons e _ _ _ he _ ih =>
    cases he with
    | roll cut cut' h => exact .cons (.rolled cut cut' h) ih
    | same =>
      cases e with
      | problem p => exact ih
      | step step => exact ih
      | roll line => exact .cons (.refl line) ih

end Matching

/-- Two runs that end alike from the start, as results of an evaluation. -/
theorem SameButShown.of_evaluateBare {setting setting' : Setting σ} {stack : Stack} {dice : σ}
    {expression : Text}
    (h : EndAlike False ({ dice } : Progress σ stack) { dice }
      (evaluateBare setting expression.withoutBlanks { dice })
      (evaluateBare setting' expression.withoutBlanks { dice })) :
    SameButShown (evaluateExpression setting dice expression stack)
      (evaluateExpression setting' dice expression stack) := by
  have hmatching : ∀ {u u' : Progress σ stack}, Tracks False { dice } u { dice } u' →
      Matching u.ledger.events u'.ledger.events := by
    intro u u' htracks
    obtain ⟨xs, xs', hx, hx', hmatch, -⟩ := htracks.entries
    rw [hx, hx']
    exact hmatch
  cases hrun : (evaluateBare setting expression.withoutBlanks : Eval σ Float stack) { dice } with
  | ok value u =>
    rw [hrun] at h
    cases hrun' : (evaluateBare setting' expression.withoutBlanks : Eval σ Float stack)
        { dice } with
    | error fault u' => rw [hrun'] at h; cases h
    | ok value' u' =>
      rw [hrun'] at h
      cases h with
      | ok htracks =>
        have hevents := hmatching htracks
        rw [evaluateExpression_of_ok hrun, evaluateExpression_of_ok hrun', htracks.alike.dice]
        exact .returned u.dice rfl rfl hevents.problems hevents.steps hevents.rolls
  | error fault u =>
    rw [hrun] at h
    cases hrun' : (evaluateBare setting' expression.withoutBlanks : Eval σ Float stack)
        { dice } with
    | ok value' u' => rw [hrun'] at h; cases h
    | error fault' u' =>
      rw [hrun'] at h
      cases h with
      | error htracks =>
        cases hfault : fault.escaping with
        | some escaped =>
          rw [evaluateExpression_of_escaping hrun hfault,
            evaluateExpression_of_escaping hrun' hfault]
          exact .fault escaped
        | none =>
          have hevents := (hmatching htracks).append (.refl [.problem .tooComplex])
          rw [evaluateExpression_of_exhausted hrun hfault,
            evaluateExpression_of_exhausted hrun' hfault, htracks.alike.dice]
          exact .returned u.dice rfl rfl hevents.problems hevents.steps hevents.rolls

/-- Under limits that differ in their budgets for roll lines, evaluations end alike. -/
theorem endAlike_budgets (setting : Setting σ) (rollLineLength shownDice : Int) (dice : σ)
    (t : Text) (stack : Stack) :
    EndAlike False ({ dice } : Progress σ stack) { dice } (evaluateBare setting t { dice })
      (evaluateBare (setting.under { setting.limits with rollLineLength, shownDice }) t
        { dice }) := by
  have hv : Varied setting (setting.under { setting.limits with rollLineLength, shownDice })
      (fun _ => False) False := ⟨rfl, .inl rfl, False.elim⟩
  have hstart : Alike False ({ dice } : Progress σ stack) { dice } := .start dice
  refine (((Follows.congruence hv).evaluateBare rfl rfl t).ends hstart).resolve_left ?_
  rintro (⟨-, _, _, -, -, hlost⟩ | ⟨⟨_, hlost⟩, -⟩) <;> exact hlost

/-- **Budgets for roll lines.** Whatever the two budgets are changed to, an expression has the
same value, problems, steps and draws, and as many roll lines; they tell of the same rolls, and
of the values shown in two of them that correspond, one list starts with the other. -/
theorem evaluateExpression_budgets (setting : Setting σ) (rollLineLength shownDice : Int)
    (dice : σ) (expression : Text) (stack : Stack) :
    SameButShown (evaluateExpression setting dice expression stack)
        (evaluateExpression (setting.under { setting.limits with rollLineLength, shownDice }) dice
          expression stack) ∧
      draws (setting.under { setting.limits with rollLineLength, shownDice }) dice expression stack =
        draws setting dice expression stack := by
  constructor
  · exact .of_evaluateBare (endAlike_budgets setting rollLineLength shownDice dice _ stack)
  · have hends := endAlike_budgets setting.recording rollLineLength shownDice (dice, [])
      expression.withoutBlanks stack
    exact congrArg Prod.snd hends.dice_eq

end Reckoner

import Reckoner.Proofs.Account

/-!
# How an evaluation ends

An expression has a finite value and no problem, or problems and no value to be trusted.
The one way out of this is a roll whose total is beyond the largest double: its line is
entered, and then the evaluation ends in a fault and gives nothing at all. The stack running
out is no other way out: it becomes a problem.
-/

namespace Reckoner

open Eval

variable {σ : Type} {stack : Stack}

/-- The entries that the evaluation of an expression makes, whether or not a fault ends it. -/
def entriesMade (setting : Setting σ) (dice : σ) (expression : Text) (stack : Stack := .ample) :
    List Event :=
  let run : Eval σ Float stack := evaluateBare setting expression.withoutBlanks
  match run { dice } with
  | .ok _ t => t.ledger.events
  | .error fault t => match fault.escaping with
    | some _ => t.ledger.events
    | none => t.ledger.events ++ [.problem .tooComplex]

theorem entriesMade_of_ok {setting : Setting σ} {dice : σ} {t : Text} {value : Float}
    {u : Progress σ stack} (h : evaluateBare setting t.withoutBlanks { dice } = .ok value u) :
    entriesMade setting dice t stack = u.ledger.events := by
  simp only [entriesMade, h]

theorem entriesMade_of_escaping {setting : Setting σ} {dice : σ} {t : Text} {fault : Fault stack}
    {escaped : Fault} {u : Progress σ stack}
    (h : evaluateBare setting t.withoutBlanks { dice } = .error fault u)
    (hfault : fault.escaping = some escaped) :
    entriesMade setting dice t stack = u.ledger.events := by
  simp only [entriesMade, h, hfault]

theorem entriesMade_of_exhausted {setting : Setting σ} {dice : σ} {t : Text} {fault : Fault stack}
    {u : Progress σ stack} (h : evaluateBare setting t.withoutBlanks { dice } = .error fault u)
    (hfault : fault.escaping = none) :
    entriesMade setting dice t stack = u.ledger.events ++ [.problem .tooComplex] := by
  simp only [entriesMade, h, hfault]

/-- An evaluation that ends without a problem has a finite value. -/
theorem isFinite_of_evaluateBare {setting : Setting σ} {t : Text} {s u : Progress σ stack}
    {value : Float} (h : evaluateBare setting t s = .ok value u) (hu : u.failed = false) :
    value.isFinite = true := by
  have hclear : u.failed ≠ true := by
    rw [hu]
    exact Bool.false_ne_true
  unfold evaluateBare at h
  split_ifs at h
  · exact absurd (failed_of_enter_return h) hclear
  · exact absurd (failed_of_enter_return h) hclear
  · obtain ⟨x, v, -, h⟩ := bind_eq_ok.mp h
    rw [failed_bind] at h
    split_ifs at h with hcheck
    · exact absurd (failed_of_enter_return h) hclear
    · cases h
      simpa [hu] using hcheck

/-- The dice afterwards are what the entries make of those before. -/
theorem replay_of_evaluateExpression {setting : Setting σ} {dice after : σ} {t : Text}
    {e : Evaluation} (h : evaluateExpression setting dice t stack = .ok (e, after)) :
    after = setting.source.replay e.ledger.events dice := by
  have haccounts : Accounts setting (evaluateBare setting t.withoutBlanks : Eval σ Float stack) :=
    accounts_evaluateBare setting t.withoutBlanks
  rcases evaluateExpression_returns.mp h with
    ⟨value, u, hrun, rfl, rfl⟩ | ⟨fault, u, hrun, hcaught, rfl, rfl⟩
  · obtain ⟨entries, hentries, -⟩ := haccounts.ok hrun
    have hevents : u.ledger.events = entries := hentries.events
    rw [hevents]
    exact hentries.dice
  · rcases haccounts.fault hrun with ⟨rfl, -⟩ | ⟨-, entries, v, hentries, -, hraised⟩
    · cases hcaught
    · have hdice : u.dice = setting.source.replay u.ledger.events dice := by
        have hevents : v.ledger.events = entries := hentries.events
        have hv : v.dice = setting.source.replay v.ledger.events dice := by
          rw [hevents]
          exact hentries.dice
        rcases hraised with rfl | rfl <;> exact hv
      show u.dice = setting.source.replay (u.ledger.events ++ [.problem .tooComplex]) dice
      rw [Source.replay_append, ← hdice]
      rfl

theorem expression_of_evaluateExpression {setting : Setting σ} {dice after : σ} {t : Text}
    {e : Evaluation} (h : evaluateExpression setting dice t stack = .ok (e, after)) :
    e.expression = t := by
  rcases evaluateExpression_returns.mp h with ⟨_, _, -, rfl, -⟩ | ⟨_, _, -, -, rfl, -⟩ <;> rfl

theorem events_of_evaluateExpression {setting : Setting σ} {dice after : σ} {t : Text}
    {e : Evaluation} (h : evaluateExpression setting dice t stack = .ok (e, after)) :
    e.ledger.events = entriesMade setting dice t stack := by
  rcases evaluateExpression_returns.mp h with
    ⟨value, u, hrun, rfl, -⟩ | ⟨fault, u, hrun, hcaught, rfl, -⟩
  · rw [entriesMade_of_ok hrun]
  · rw [entriesMade_of_exhausted hrun hcaught]
    rfl

/-- Where no roll overflows, an evaluation returns with the entries that it made. -/
theorem evaluateExpression_of_fitting {setting : Setting σ} {dice : σ} {t : Text}
    (hfit : ∀ entry ∈ entriesMade setting dice t stack, entry.overflows = false) :
    ∃ e after, evaluateExpression setting dice t stack = .ok (e, after) ∧
      e.ledger.events = entriesMade setting dice t stack := by
  have haccounts : Accounts setting (evaluateBare setting t.withoutBlanks : Eval σ Float stack) :=
    accounts_evaluateBare setting t.withoutBlanks
  suffices h : ∃ e after, evaluateExpression setting dice t stack = .ok (e, after) by
    obtain ⟨e, after, h⟩ := h
    exact ⟨e, after, h, events_of_evaluateExpression h⟩
  cases hrun : (evaluateBare setting t.withoutBlanks : Eval σ Float stack) { dice } with
  | ok value u => exact ⟨_, _, evaluateExpression_of_ok hrun⟩
  | error fault u =>
    rcases haccounts.fault hrun with ⟨rfl, entries, hentries, hover⟩ | ⟨hcaught, -⟩
    · have hevents : u.ledger.events = entries := hentries.events
      rw [entriesMade_of_escaping hrun rfl, hevents] at hfit
      obtain ⟨entry, hmem, hoverflows⟩ := List.any_eq_true.mp hover
      exact absurd ((hfit entry hmem).symm.trans hoverflows) Bool.false_ne_true
    · exact ⟨_, _, evaluateExpression_of_exhausted hrun hcaught⟩

/-- An evaluation without a problem is a run to its end. -/
theorem run_of_success {setting : Setting σ} {dice after : σ} {t : Text} {e : Evaluation}
    (h : evaluateExpression setting dice t stack = .ok (e, after)) (he : e.failed = false) :
    ∃ value, ∃ u : Progress σ stack, evaluateBare setting t.withoutBlanks { dice } = .ok value u ∧
      e = { expression := t, value, ledger := u.ledger } ∧ after = u.dice := by
  rcases evaluateExpression_returns.mp h with hrun | ⟨fault, u, -, -, rfl, -⟩
  · exact hrun
  · cases he

/-- The value of an expression that is neither empty nor too long is judged at the end. -/
theorem evaluateBare_of_short {setting : Setting σ} {t : Text} (hne : t ≠ [])
    (hlength : (t.length : Int) ≤ setting.limits.maxLength) :
    (evaluateBare setting t : Eval σ Float stack) = do
      let value ← topmost setting .whole t
      if !(← failed) && !value.isFinite then enter .resultTooLarge
      return value := by
  have hempty : t.isEmpty = false := by simpa using hne
  rw [evaluateBare, hempty, if_neg Bool.false_ne_true, if_neg (by omega)]
  rfl

theorem evaluateExpression_of_short {setting : Setting σ} {dice : σ} {t : Text}
    (hne : t.withoutBlanks ≠ [])
    (hlength : (t.withoutBlanks.length : Int) ≤ setting.limits.maxLength) :
    evaluateExpression setting dice t =
      match topmost setting .whole t.withoutBlanks { dice } with
      | .ok x u =>
        .ok ({ expression := t
               value := x
               ledger := if !u.failed && !x.isFinite then u.ledger.raise.add (.problem .resultTooLarge)
                 else u.ledger }, u.dice)
      | .error fault _ => .error fault := by
  rw [evaluateExpression_ample, evaluateBare_of_short hne hlength, bind_apply]
  cases topmost setting .whole t.withoutBlanks { dice } with
  | error fault u => rfl
  | ok x u =>
    dsimp only
    rw [failed_bind]
    cases hjudged : !u.failed && !x.isFinite <;> rfl

/-- An expression that is evaluated without a problem is neither empty nor too long. -/
theorem short_of_success {setting : Setting σ} {dice after : σ} {t : Text} {e : Evaluation}
    (h : evaluateExpression setting dice t stack = .ok (e, after)) (he : e.failed = false) :
    t.withoutBlanks ≠ [] ∧ (t.withoutBlanks.length : Int) ≤ setting.limits.maxLength := by
  obtain ⟨value, u, hrun, rfl, -⟩ := run_of_success h he
  have hclear : u.failed ≠ true := ne_true_of_eq_false he
  unfold evaluateBare at hrun
  split_ifs at hrun with hempty hlong
  · exact absurd (failed_of_enter_return hrun) hclear
  · exact absurd (failed_of_enter_return hrun) hclear
  · exact ⟨fun hnil => hempty (List.isEmpty_iff.mpr hnil), not_lt.mp hlong⟩

/-- A run without a problem that comes to a finite value is the whole evaluation. -/
theorem evaluateExpression_of_run {setting : Setting σ} {dice : σ} {t : Text} {x : Float}
    {u : Progress σ stack} (hne : t.withoutBlanks ≠ [])
    (hlength : (t.withoutBlanks.length : Int) ≤ setting.limits.maxLength)
    (hrun : topmost setting .whole t.withoutBlanks { dice } = .ok x u)
    (hfinite : x.isFinite = true) :
    evaluateExpression setting dice t stack =
      .ok ({ expression := t, value := x, ledger := u.ledger }, u.dice) := by
  have hbare : evaluateBare setting t.withoutBlanks { dice } = .ok x u := by
    rw [evaluateBare_of_short hne hlength, bind_of_ok hrun, failed_bind, hfinite, Bool.not_true,
      Bool.and_false, if_neg Bool.false_ne_true]
    rfl
  exact evaluateExpression_of_ok hbare

/-- **How an evaluation ends.** For every source of dice, all limits, every expression and every
stack: unless a roll has a total that no double comes near, the evaluation returns, either with
a finite value and no problem or with at least one problem. If there is such a roll, the
evaluation ends in a fault. -/
theorem evaluateExpression_outcome (setting : Setting σ) (dice : σ) (expression : Text)
    (stack : Stack) :
    if (entriesMade setting dice expression stack).any Event.overflows then
      evaluateExpression setting dice expression stack = .error .totalTooLarge
    else
      ∃ e after, evaluateExpression setting dice expression stack = .ok (e, after) ∧
        e.ledger.events = entriesMade setting dice expression stack ∧
        (e.failed = false ∧ e.value.isFinite = true ∧ e.ledger.problems = [] ∨
          e.failed = true ∧ e.ledger.problems ≠ []) := by
  have haccounts : Accounts setting
      (evaluateBare setting expression.withoutBlanks : Eval σ Float stack) :=
    accounts_evaluateBare setting expression.withoutBlanks
  cases hrun : (evaluateBare setting expression.withoutBlanks : Eval σ Float stack) { dice } with
  | ok value t =>
    obtain ⟨entries, hentries, hover⟩ := haccounts.ok hrun
    have hevents : t.ledger.events = entries := hentries.events
    have hnone : ¬t.ledger.events.any Event.overflows = true := by
      rw [hevents, hover]
      exact Bool.false_ne_true
    rw [evaluateExpression_of_ok hrun, entriesMade_of_ok hrun, if_neg hnone]
    refine ⟨_, _, rfl, rfl, ?_⟩
    have hflag := (hentries.flagged rfl).failed_eq_false_iff
    by_cases hfailed : t.failed = true
    · refine .inr ⟨hfailed, fun hempty => ?_⟩
      exact Bool.false_ne_true ((hflag.mpr hempty).symm.trans hfailed)
    · have hclear : t.failed = false := by simpa using hfailed
      exact .inl ⟨hclear, isFinite_of_evaluateBare hrun hclear, hflag.mp hclear⟩
  | error fault t =>
    rcases haccounts.fault hrun with
      ⟨rfl, entries, hentries, hover⟩ | ⟨hcaught, entries, u, hentries, hover, hraised⟩
    · have hevents : t.ledger.events = entries := hentries.events
      have hsome : t.ledger.events.any Event.overflows = true := by rw [hevents, hover]
      rw [evaluateExpression_of_escaping hrun rfl, entriesMade_of_escaping hrun rfl, if_pos hsome]
    · have hevents : t.ledger.events = entries := by
        have hu : u.ledger.events = entries := hentries.events
        rcases hraised with rfl | rfl <;> exact hu
      have hnone : ¬(t.ledger.events ++ [Event.problem .tooComplex]).any Event.overflows = true := by
        simp [hevents, hover, Event.overflows]
      rw [evaluateExpression_of_exhausted hrun hcaught, entriesMade_of_exhausted hrun hcaught,
        if_neg hnone]
      refine ⟨_, _, rfl, rfl, .inr ⟨rfl, fun hempty => ?_⟩⟩
      have hmem : Problem.tooComplex ∈ (t.ledger.raise.add (.problem .tooComplex)).problems :=
        Ledger.mem_problems.mpr (List.mem_append_right _ (List.mem_singleton_self _))
      rw [hempty] at hmem
      cases hmem

/-- Whether a run ends with an answer and without a problem. -/
instance {α : Type} [DecidableEq α] (r : EStateM.Result Fault (Progress σ) α) (a : α) :
    Decidable (∃ u, r = .ok a u ∧ u.failed = false) :=
  match r with
  | .error _ _ => isFalse (by rintro ⟨u, hu, -⟩; cases hu)
  | .ok b u => decidable_of_iff (b = a ∧ u.failed = false) ⟨
      fun ⟨hb, hu⟩ => ⟨u, by rw [hb], hu⟩,
      by rintro ⟨v, hv, hclear⟩; cases hv; exact ⟨rfl, hclear⟩⟩

/-- The usual limits, with dice from a feed. -/
def usual : Setting Feed := { source := Feed.source, limits := {} }

/-- Two dice of as many faces as a double can well tell have a total that is no double. -/
theorem evaluateExpression_two_large_dice :
    evaluateExpression usual .high ['2', 'd', '1', 'E', '3', '0', '8'] =
      .error .totalTooLarge := by
  decide +kernel

end Reckoner

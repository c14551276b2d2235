import Reckoner.Proofs.Draws
import Reckoner.Proofs.Group
import Reckoner.Proofs.Kept

/-!
# Expressions without dice

The text that is evaluated is not the text that was typed: values are written in the place of
groups, and lists of arguments get other brackets. None of this brings a `d` into a text that
has none, so no tier ever splits at one (`Reenters.d_not_mem`), and nothing but a roll looks
at the dice. What is left of the source is that there is one: an expression without a `d` is
evaluated to its end, and alike under any two sources.
-/

namespace Reckoner

open Eval

variable {σ σ' α β : Type} {stack : Stack}

/-! ## Texts without dice -/

theorem Eval.Folded.d_not_mem {t t' : Text} (h : Folded t t') (ht : 'd' ∉ t) : 'd' ∉ t' := by
  intro hd
  rcases h.mem 'd' hd with hmem | hmark | hnumber
  · exact ht hmem
  · exact absurd hmark (by decide)
  · exact ne_of_isNumberChar hnumber (by decide) (by decide) rfl

theorem Eval.Reenters.d_not_mem {t u : Text} (h : Reenters t u) (ht : 'd' ∉ t) : 'd' ∉ u :=
  h.keeps Folded.d_not_mem (fun hpart ht hd => ht (hpart.inside.subset hd)) ht

/-! ## Steps that leave the dice alone -/

theorem keptByEntries_unrolled :
    KeptByEntries (fun e => e.roll? = none) fun s t : Progress σ stack => Unrolled s t where
  refl := .refl
  trans := .trans
  raised _ := ⟨rfl, rfl, rfl⟩
  problem s _ hp := .add s hp
  step s _ hstep := .add s hstep

/-- The same state with other dice. -/
def Progress.withDice (s : Progress σ stack) (dice : σ') : Progress σ' stack :=
  { ledger := s.ledger, dice, depth := s.depth, deepest := s.deepest }

/-- The same end with other dice. -/
def endWithDice (dice : σ') : EStateM.Result (Fault stack) (Progress σ stack) α →
    EStateM.Result (Fault stack) (Progress σ' stack) α
  | .ok a t => .ok a (t.withDice dice)
  | .error fault t => .error fault (t.withDice dice)

/-- Two steps that roll nothing, always answer unless the stack is exhausted, and do the same
whatever their dice are. -/
structure Diceless (m : Eval σ α stack) (m' : Eval σ' α stack) : Prop where
  unrolled : ∀ s, Unrolled s (lastState (m s))
  caught : ∀ {s t fault}, m s = .error fault t → fault.escaping = none
  same : ∀ s dice, m' (s.withDice dice) = endWithDice dice (m s)

namespace Diceless

theorem answer (a : α) : Diceless (pure a : Eval σ α stack) (pure a : Eval σ' α stack) :=
  ⟨.refl, nofun, fun _ _ => rfl⟩

theorem enter (p : Problem) :
    Diceless (enter p : Eval σ Unit stack) (enter p : Eval σ' Unit stack) where
  unrolled := keptByEntries_unrolled.enter p rfl
  caught h := (enter_eq_error h).1
  same s dice := by
    have hroom : ∀ use, stack.hasRoom use (s.withDice dice).depth = stack.hasRoom use s.depth :=
      fun _ => rfl
    rcases enter_alike p hroom with ⟨h, h'⟩ | ⟨_, ⟨h, h'⟩ | ⟨h, h'⟩⟩ <;> rw [h, h'] <;> rfl

theorem sequence {m : Eval σ α stack} {m' : Eval σ' α stack} {k : α → Eval σ β stack}
    {k' : α → Eval σ' β stack} (hm : Diceless m m') (hk : ∀ a, Diceless (k a) (k' a)) :
    Diceless (m >>= k) (m' >>= k') where
  unrolled := keptByEntries_unrolled.sequence hm.unrolled fun a => (hk a).unrolled
  caught h := by
    rcases bind_eq_error.mp h with h | ⟨a, t, -, h⟩
    · exact hm.caught h
    · exact (hk a).caught h
  same s dice := by
    rw [bind_apply, bind_apply, hm.same s dice]
    cases m s with
    | ok a t => exact (hk a).same t dice
    | error fault t => rfl

theorem nested {m : Eval σ α stack} {m' : Eval σ' α stack} (hm : Diceless m m') :
    Diceless (nested m) (nested m') where
  unrolled s := by
    have hinner := hm.unrolled (deeper s)
    rcases lastState_nested_cases m s with h | h <;> rw [h]
    · exact ⟨hinner.dice, hinner.rolls, hinner.shown⟩
    · exact .refl s
  caught h := by
    rcases nested_eq_error h with ⟨hcaught, -⟩ | ⟨t, h, -⟩
    · exact hcaught
    · exact hm.caught h
  same s dice := by
    have hdeeper : m' (deeper (s.withDice dice)) = endWithDice dice (m (deeper s)) :=
      hm.same (deeper s) dice
    by_cases hroom : stack.hasRoom .evaluation (s.depth + 1) = true
    · have hroom' : stack.hasRoom .evaluation ((s.withDice dice).depth + 1) = true := hroom
      rw [nested_of_room hroom, nested_of_room hroom', hdeeper]
      cases m (deeper s) <;> rfl
    · have hroom' : ¬stack.hasRoom .evaluation ((s.withDice dice).depth + 1) = true := hroom
      rw [nested_of_not_room hroom, nested_of_not_room hroom']
      rfl

theorem respects : Respects (fun _ => True)
    fun _ (m : Eval σ _ stack) (m' : Eval σ' _ stack) => Diceless m m' where
  answer := answer
  sequence := sequence
  flag := ⟨.refl, nofun, fun _ _ => rfl⟩
  problem p _ := enter p
  step _ _ := ⟨fun s => .add s rfl, nofun, fun _ _ => rfl⟩

end Diceless

/-! ## Evaluations without dice -/

/-- **Nested evaluations without dice.** A text without a `d` is evaluated alike under any two
sources, however deep: the texts that are handed on have no `d` either. -/
theorem diceless_descend {setting : Setting σ} {setting' : Setting σ'}
    (hlimits : setting.limits = setting'.limits) (levels : Nat) (entry : Entry) {t : Text}
    (ht : 'd' ∉ t) :
    Diceless (descend setting levels entry t : Eval σ Float stack)
      (descend setting' levels entry t) := by
  have h := @Diceless.respects σ σ' stack
  induction levels generalizing entry t with
  | zero =>
    rw [descend, descend, hlimits]
    exact h.unlessFailed (h.refuse trivial)
  | succ levels ih =>
    have hnone : ∀ folded, FoldsTo t folded → 'd' ∉ folded :=
      fun _ hfolds => hfolds.keeps Folded.d_not_mem ht
    refine h.unlessFailed (.nested
      (h.evalStep (fun folded _ => .all folded) (fun entry u hu => ?_) (fun folded hfolds hd => ?_)
        entry))
    · exact ih entry (hu.d_not_mem ht)
    · exact absurd hd (hnone folded hfolds)

theorem diceless_evaluateBare {setting : Setting σ} {setting' : Setting σ'}
    (hlimits : setting.limits = setting'.limits) {t : Text} (ht : 'd' ∉ t) :
    Diceless (evaluateBare setting t : Eval σ Float stack) (evaluateBare setting' t) := by
  refine Diceless.respects.evaluateBare (by rw [hlimits]) (.all t) ?_
  unfold evaluate topmost
  rw [hlimits]
  exact diceless_descend hlimits _ _ ht

variable (stack) in
theorem diceless_evaluateExpression (setting : Setting σ) (setting' : Setting σ')
    (hlimits : setting.limits = setting'.limits) (dice : σ) (dice' : σ') {expression : Text}
    (h : 'd' ∉ expression) :
    ∃ e, evaluateExpression setting dice expression stack = .ok (e, dice) ∧
      evaluateExpression setting' dice' expression stack = .ok (e, dice') ∧
      e.ledger.rolls = [] ∧ e.ledger.shown = 0 := by
  have hbare : 'd' ∉ expression.withoutBlanks := fun hd => h (List.mem_of_mem_filter hd)
  have hdiceless : Diceless
      (evaluateBare setting expression.withoutBlanks : Eval σ Float stack)
      (evaluateBare setting' expression.withoutBlanks) := diceless_evaluateBare hlimits hbare
  have hunrolled := hdiceless.unrolled { dice }
  have hsame := hdiceless.same { dice } dice'
  cases hrun : (evaluateBare setting expression.withoutBlanks : Eval σ Float stack) { dice } with
  | ok x t =>
    rw [hrun] at hunrolled hsame
    obtain rfl : t.dice = dice := hunrolled.dice
    exact ⟨_, evaluateExpression_of_ok hrun, evaluateExpression_of_ok hsame, hunrolled.rolls,
      hunrolled.shown⟩
  | error fault t =>
    rw [hrun] at hunrolled hsame
    obtain rfl : t.dice = dice := hunrolled.dice
    have hcaught := hdiceless.caught hrun
    have hrolls : (t.add (.problem .tooComplex)).ledger.rolls = [] :=
      (hunrolled.trans (.add t rfl)).rolls
    exact ⟨_, evaluateExpression_of_exhausted hrun hcaught,
      evaluateExpression_of_exhausted hsame hcaught, hrolls, hunrolled.shown⟩

variable (stack) in
/-- An expression without a `d` draws nothing. -/
theorem draws_diceless (setting : Setting σ) (dice : σ) {expression : Text}
    (h : 'd' ∉ expression) : draws setting dice expression stack = [] := by
  obtain ⟨e, hrun, -, -, -⟩ := diceless_evaluateExpression stack setting setting rfl dice dice h
  obtain ⟨e', hrun', -, -, -⟩ :=
    diceless_evaluateExpression stack setting.recording setting.recording rfl (dice, []) (dice, []) h
  rw [evaluateExpression_recording hrun] at hrun'
  exact congrArg (fun r : σ × List (Nat × Nat) => r.2) (Prod.mk.inj (Except.ok.inj hrun')).2

/-- **Expressions without dice.** For every expression without a `d`, all limits, any stack and
any two sources: the evaluation returns under both, with the same value, problems and steps, and
leaves either source as it was. There is no roll line, no die is shown and none is drawn,
whether the evaluation succeeds or fails. -/
theorem evaluateExpression_diceless (stack : Stack) (limits : Limits) (source : Source σ)
    (source' : Source σ') (dice : σ) (dice' : σ') {expression : Text} (h : 'd' ∉ expression) :
    ∃ e, evaluateExpression ⟨source, limits⟩ dice expression stack = .ok (e, dice) ∧
      evaluateExpression ⟨source', limits⟩ dice' expression stack = .ok (e, dice') ∧
      e.ledger.rolls = [] ∧ e.ledger.rollText = [] ∧ e.ledger.shown = 0 ∧
      draws ⟨source, limits⟩ dice expression stack = [] ∧
      draws ⟨source', limits⟩ dice' expression stack = [] := by
  obtain ⟨e, hrun, hrun', hrolls, hshown⟩ :=
    diceless_evaluateExpression stack ⟨source, limits⟩ ⟨source', limits⟩ rfl dice dice' h
  have htext : e.ledger.rollText = [] := by
    rw [Ledger.rollText, hrolls]
    rfl
  exact ⟨e, hrun, hrun', hrolls, htext, hshown, draws_diceless stack _ dice h,
    draws_diceless stack _ dice' h⟩

/-- The third is written out before a tier with `d` and `%` looks at the text; the division by
zero fails whatever the dice are. -/
theorem evaluateExpression_diceless_failure :
    'd' ∉ ['2', '(', '1', '/', '3', ')', '%', '0'] ∧
      ∃ e, e.failed = true ∧
        evaluateExpression ⟨Feed.source, {}⟩ .low ['2', '(', '1', '/', '3', ')', '%', '0'] =
          .ok (e, .low) ∧
        evaluateExpression ⟨Feed.source, {}⟩ .high ['2', '(', '1', '/', '3', ')', '%', '0'] =
          .ok (e, .high) ∧
        e.ledger.rolls = [] ∧ e.ledger.rollText = [] ∧ e.ledger.shown = 0 ∧
        draws ⟨Feed.source, {}⟩ .low ['2', '(', '1', '/', '3', ')', '%', '0'] = [] ∧
        draws ⟨Feed.source, {}⟩ .high ['2', '(', '1', '/', '3', ')', '%', '0'] = [] := by
  obtain ⟨e, hrun, hrest⟩ := evaluateExpression_diceless .ample {} Feed.source Feed.source .low .high
    (show 'd' ∉ ['2', '(', '1', '/', '3', ')', '%', '0'] by decide)
  have hfailed : (evaluateExpression ⟨Feed.source, {}⟩ .low
      ['2', '(', '1', '/', '3', ')', '%', '0']).map (·.1.failed) = .ok true := by decide +kernel
  rw [hrun] at hfailed
  exact ⟨by decide, e, Except.ok.inj hfailed, hrun, hrest⟩

end Reckoner

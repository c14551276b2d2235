import Reckoner.Proofs.Alongside
import Reckoner.Proofs.Limits

/-!
# Draws

What an evaluation asks its source for, die by die. A source that keeps a record of its own
draws is one that carries something along, so an evaluation with a record is the evaluation
without it (`evaluateExpression_recording`), and two evaluations can be compared by what they
drew whatever the states of their source are.
-/

namespace Reckoner

open Eval

variable {σ : Type}

/-- The same source with a record of its draws: the faces of each die and its value. -/
def Source.recording (source : Source σ) : Source (σ × List (Nat × Nat)) where
  draw faces s :=
    ((source.draw faces s.1).1, (source.draw faces s.1).2,
      s.2 ++ [(faces, (source.draw faces s.1).1)])
  one_le_draw faces s h := source.one_le_draw faces s.1 h
  draw_le faces s h := source.draw_le faces s.1 h

def Setting.recording (setting : Setting σ) : Setting (σ × List (Nat × Nat)) where
  source := setting.source.recording
  limits := setting.limits

theorem Source.drawOnto_eq (source : Source σ) (faces count : Nat) (drawn : List Nat) (s : σ) :
    source.drawOnto faces count drawn s =
      (drawn.reverse ++ (source.drawMany faces count s).1, (source.drawMany faces count s).2) := by
  induction count generalizing drawn s with
  | zero => rw [drawMany, drawOnto, drawOnto, List.reverse_nil, List.append_nil]
  | succ count ih =>
    have hfirst : ∀ before, source.drawOnto faces (count + 1) before s =
        source.drawOnto faces count ((source.draw faces s).1 :: before)
          (source.draw faces s).2 := fun _ => rfl
    rw [drawMany, hfirst, hfirst, ih, ih, List.reverse_cons, List.append_assoc]
    rfl

/-- The first die of several, and the others from where it leaves the source. -/
theorem Source.drawMany_succ (source : Source σ) (faces count : Nat) (s : σ) :
    source.drawMany faces (count + 1) s =
      ((source.draw faces s).1 :: (source.drawMany faces count (source.draw faces s).2).1,
        (source.drawMany faces count (source.draw faces s).2).2) := by
  rw [drawMany]
  exact source.drawOnto_eq faces count [(source.draw faces s).1] (source.draw faces s).2

/-- Several dice are drawn one by one, each with the faces asked for. -/
theorem Source.drawMany_recording (source : Source σ) (faces count : Nat)
    (s : σ × List (Nat × Nat)) :
    source.recording.drawMany faces count s =
      ((source.drawMany faces count s.1).1, (source.drawMany faces count s.1).2,
        s.2 ++ (source.drawMany faces count s.1).1.map (faces, ·)) := by
  induction count generalizing s with
  | zero => simp [drawMany, drawOnto]
  | succ count ih =>
    rw [drawMany_succ, drawMany_succ, ih]
    simp [recording]

theorem Setting.carries_recording (setting : Setting σ) : setting.recording.Carries setting :=
  ⟨fun _ _ => ⟨rfl, rfl⟩, rfl⟩

/-- The draws that the evaluation of an expression makes, in order, also if a fault ends it. -/
def draws (setting : Setting σ) (dice : σ) (expression : Text) (stack : Stack := .ample) :
    List (Nat × Nat) :=
  let run : Eval _ Float stack := evaluateBare setting.recording expression.withoutBlanks
  (lastState (run { dice := (dice, []) })).dice.2

/-- An evaluation that returns does so with a record, too, which ends with its draws. -/
theorem evaluateExpression_recording {setting : Setting σ} {dice after : σ} {expression : Text}
    {stack : Stack} {e : Evaluation}
    (h : evaluateExpression setting dice expression stack = .ok (e, after)) :
    evaluateExpression setting.recording (dice, []) expression stack =
      .ok (e, after, draws setting dice expression stack) := by
  obtain ⟨record, hrecording⟩ :=
    exists_evaluateExpression_of_carries setting.carries_recording [] h
  have hdraws : draws setting dice expression stack = record := by
    rcases evaluateExpression_returns.mp hrecording with
      ⟨value, u, hrun, -, hdice⟩ | ⟨fault, u, hrun, -, -, hdice⟩
    all_goals
      simp only [draws, hrun, lastState]
      rw [← hdice]
  rw [hrecording, hdraws]

/-- Evaluations that come to the same with a record have made the same draws. -/
theorem draws_eq_of_recording {setting setting' : Setting σ} {dice after : σ} {t t' : Text}
    {stack : Stack} {e' : Evaluation}
    (h' : evaluateExpression setting' dice t' stack = .ok (e', after))
    (hrecording : evaluateExpression setting'.recording (dice, []) t' stack =
      .ok (e', after, draws setting dice t stack)) :
    draws setting' dice t' stack = draws setting dice t stack := by
  have hrecord := (evaluateExpression_recording h').symm.trans hrecording
  exact (Prod.mk.inj (Prod.mk.inj (Except.ok.inj hrecord)).2).2

end Reckoner

import Reckoner.Proofs.Limits

/-!
# What runs keep

A run relates the state that it starts from to the one that it ends in, whether it returns or a
fault ends it. A reflexive and transitive relation that single entries keep, and the flag that is
raised before a problem, is kept by whatever is put together from them
(`KeptByEntries.respects`). If the line of a roll keeps it as well, and a nested step keeps it on
the way down and up again, then every evaluation does (`Kept.evaluateBare`).
-/

namespace Reckoner

open Eval

variable {σ : Type} {stack : Stack} {setting : Setting σ} {allowed : Event → Prop}
  {rel : Progress σ stack → Progress σ stack → Prop}

/-- A relation between the states before and after that allowed entries keep. -/
structure KeptByEntries (allowed : Event → Prop) (rel : Progress σ stack → Progress σ stack → Prop) :
    Prop where
  refl : ∀ s, rel s s
  trans : ∀ {s t u}, rel s t → rel t u → rel s u
  raised : ∀ s, rel s s.raised
  problem : ∀ s p, allowed (.problem p) → rel s (s.add (.problem p))
  step : ∀ s step, allowed (.step step) → rel s (s.add (.step step))

namespace KeptByEntries

variable (h : KeptByEntries allowed rel)
include h

theorem sequence {α β : Type} {m : Eval σ α stack} {k : α → Eval σ β stack}
    (hm : ∀ s, rel s (lastState (m s))) (hk : ∀ a s, rel s (lastState (k a s)))
    (s : Progress σ stack) : rel s (lastState ((m >>= k) s)) := by
  have hfirst := hm s
  rw [bind_apply]
  cases hrun : m s with
  | error fault t =>
    rw [hrun] at hfirst
    exact hfirst
  | ok a t =>
    rw [hrun] at hfirst
    exact h.trans hfirst (hk a t)

/-- Also where there is no room to enter it. -/
theorem enter (p : Problem) (hp : allowed (.problem p)) (s : Progress σ stack) :
    rel s (lastState (enter p s)) := by
  rcases lastState_enter_cases p s with hlast | hlast | hlast <;> rw [hlast]
  · exact h.problem s p hp
  · exact h.raised s
  · exact h.refl s

theorem respects : Respects allowed fun α (m _ : Eval σ α stack) => ∀ s, rel s (lastState (m s)) where
  answer _ := h.refl
  sequence := h.sequence
  flag := h.refl
  problem := h.enter
  step step hstep s := h.step s step hstep

/-- A roll enters its line, or the problems of its two numbers. -/
theorem roll (hroll : ∀ s n faces, rel s (afterRoll setting n faces s)) {count sides : Float}
    (hcount : allowed (.problem (.tooManyDice count setting.limits.maxDice)))
    (hsides : allowed (.problem (.noFaces sides))) (s : Progress σ stack) :
    rel s (lastState (Eval.roll setting count sides s)) := by
  refine @Respects.roll_of_rollDice σ σ stack stack _ _ h.respects setting setting count sides rfl
    (fun p hp => ?_) (fun p hp => ?_) (fun n faces s => ?_) s
  · rw [diceCount_eq_error hp]
    exact hcount
  · rw [faceCount_eq_error hp]
    exact hsides
  · rw [lastState_rollDice]
    exact hroll s n faces

end KeptByEntries

/-- A relation between the states before and after that everything in an evaluation keeps. -/
structure Kept (setting : Setting σ) (rel : Progress σ stack → Progress σ stack → Prop) : Prop
    extends KeptByEntries (fun _ => True) rel where
  nested : ∀ {s t}, rel (deeper s) t → rel s (atDepth s.depth t)
  line : ∀ s n faces, rel s (afterRoll setting n faces s)

namespace Kept

variable (h : Kept setting rel)
include h

theorem congruence :
    Congruence setting setting fun _ (m _ : Eval σ _ stack) => ∀ s, rel s (lastState (m s)) where
  toRespects := h.respects
  deeper {α m _} hm s := by
    rcases lastState_nested_cases m s with hlast | hlast <;> rw [hlast]
    · exact h.nested (hm _)
    · exact h.refl s
  dice _ _ := h.toKeptByEntries.roll h.line trivial trivial

/-- **Evaluations.** What every single step keeps, every evaluation keeps, however it ends. -/
theorem evaluateBare (t : Text) (s : Progress σ stack) :
    rel s (lastState (evaluateBare setting t s)) :=
  h.congruence.evaluateBare rfl rfl t s

end Kept

end Reckoner

import Reckoner.Proofs.ShortCircuit

/-!
# Runs with something carried along

A source whose state has a second component that evaluation never looks at (`Source.Carries`):
draws may change it, each in the same way (`Source.alongside`) or by what is drawn, and so may
steps put in for that purpose (`descendKeeping`). Whatever it is, the run without it is the same
(`projects_descendKeeping`). Counting draws, recording them and keeping the values of nested
evaluations are done this way.
-/

namespace Reckoner

open Eval

variable {σ τ α β : Type} {stack : Stack}

/-! ## The larger state -/

/-- A source that draws as another one does and has a second component in its state. -/
def Source.Carries (carrier : Source (σ × τ)) (source : Source σ) : Prop :=
  ∀ faces s, (carrier.draw faces s).1 = (source.draw faces s.1).1 ∧
    (carrier.draw faces s).2.1 = (source.draw faces s.1).2

theorem Source.Carries.drawOnto {carrier : Source (σ × τ)} {source : Source σ}
    (h : carrier.Carries source) (faces count : Nat) (drawn : List Nat) (s : σ × τ) :
    (carrier.drawOnto faces count drawn s).1 = (source.drawOnto faces count drawn s.1).1 ∧
      (carrier.drawOnto faces count drawn s).2.1 = (source.drawOnto faces count drawn s.1).2 := by
  induction count generalizing drawn s with
  | zero => exact ⟨rfl, rfl⟩
  | succ count ih =>
    obtain ⟨hvalue, hnext⟩ := h faces s
    simp only [Source.drawOnto, ← hvalue, ← hnext]
    exact ih _ _

theorem Source.Carries.drawMany {carrier : Source (σ × τ)} {source : Source σ}
    (h : carrier.Carries source) (faces count : Nat) (s : σ × τ) :
    (carrier.drawMany faces count s).1 = (source.drawMany faces count s.1).1 ∧
      (carrier.drawMany faces count s).2.1 = (source.drawMany faces count s.1).2 :=
  h.drawOnto faces count [] s

/-- A setting with dice that carry something along. -/
structure Setting.Carries (carrier : Setting (σ × τ)) (setting : Setting σ) : Prop where
  source : carrier.source.Carries setting.source
  limits : carrier.limits = setting.limits

/-- A source with a second component of its state, which every draw changes by `tick`. -/
def Source.alongside (source : Source σ) (tick : τ → τ) : Source (σ × τ) where
  draw faces s := ((source.draw faces s.1).1, (source.draw faces s.1).2, tick s.2)
  one_le_draw faces s h := source.one_le_draw faces s.1 h
  draw_le faces s h := source.draw_le faces s.1 h

def Setting.alongside (setting : Setting σ) (tick : τ → τ) : Setting (σ × τ) where
  source := setting.source.alongside tick
  limits := setting.limits

theorem Setting.carries_alongside (setting : Setting σ) (tick : τ → τ) :
    (setting.alongside tick).Carries setting :=
  ⟨fun _ _ => ⟨rfl, rfl⟩, rfl⟩

theorem Source.drawOnto_alongside (source : Source σ) (tick : τ → τ) (faces count : Nat)
    (drawn : List Nat) (s : σ × τ) :
    (source.alongside tick).drawOnto faces count drawn s =
      ((source.drawOnto faces count drawn s.1).1, (source.drawOnto faces count drawn s.1).2,
        tick^[count] s.2) := by
  induction count generalizing drawn s with
  | zero => rfl
  | succ count ih =>
    rw [Source.drawOnto, Source.drawOnto]
    exact ih _ _

theorem Source.drawMany_alongside (source : Source σ) (tick : τ → τ) (faces count : Nat)
    (s : σ × τ) :
    (source.alongside tick).drawMany faces count s =
      ((source.drawMany faces count s.1).1, (source.drawMany faces count s.1).2,
        tick^[count] s.2) :=
  source.drawOnto_alongside tick faces count [] s

/-- How many dice an entry tells were drawn. -/
def Event.drawn : Event → Nat
  | .roll (.rolled count _ _ _ _) => count.natAbs
  | _ => 0

/-- The dice that were drawn for all entries. -/
def drawnIn (entries : List Event) : Nat := (entries.map Event.drawn).sum

/-- The second component ticks once for every die that the entries tell of. -/
theorem Source.replay_alongside (source : Source σ) (tick : τ → τ) (entries : List Event)
    (s : σ × τ) :
    (source.alongside tick).replay entries s =
      (source.replay entries s.1, tick^[drawnIn entries] s.2) := by
  induction entries generalizing s with
  | nil => rfl
  | cons e entries ih =>
    have hentry : (source.alongside tick).afterEntry s e =
        (source.afterEntry s.1 e, tick^[e.drawn] s.2) := by
      cases e with
      | problem p => rfl
      | step step => rfl
      | roll line =>
        cases line with
        | stated line => rfl
        | rolled count faces shown cut total =>
          rw [Source.afterEntry, drawMany_alongside]
          rfl
    have hdrawn : drawnIn (e :: entries) = drawnIn entries + e.drawn := by
      rw [drawnIn, List.map_cons, List.sum_cons, Nat.add_comm]
      rfl
    rw [Source.replay, List.foldl_cons, hentry, hdrawn, Function.iterate_add_apply]
    exact ih _

/-! ## Leaving it out -/

/-- The state without the second component. -/
def Progress.project (s : Progress (σ × τ) stack) : Progress σ stack where
  ledger := s.ledger
  dice := s.dice.1
  depth := s.depth
  deepest := s.deepest

/-- The end of a run without the second component. -/
def projectEnd : EStateM.Result (Fault stack) (Progress (σ × τ) stack) α →
    EStateM.Result (Fault stack) (Progress σ stack) α
  | .ok a s => .ok a s.project
  | .error fault s => .error fault s.project

/-- The second evaluation is the first one without the second component. -/
def Projects (m : Eval (σ × τ) α stack) (m' : Eval σ α stack) : Prop :=
  ∀ s, m' s.project = projectEnd (m s)

namespace Projects

theorem answer (a : α) : Projects (pure a : Eval (σ × τ) α stack) (pure a) := fun _ => rfl

theorem sequence {m : Eval (σ × τ) α stack} {m' : Eval σ α stack} {k : α → Eval (σ × τ) β stack}
    {k' : α → Eval σ β stack} (hm : Projects m m') (hk : ∀ a, Projects (k a) (k' a)) :
    Projects (m >>= k) (m' >>= k') := by
  intro s
  rw [bind_apply, bind_apply, hm s]
  cases m s with
  | ok a t => exact hk a t
  | error fault t => rfl

theorem enter (p : Problem) :
    Projects (enter p : Eval (σ × τ) Unit stack) (enter p : Eval σ Unit stack) := by
  intro s
  have hroom : ∀ use, stack.hasRoom use s.project.depth = stack.hasRoom use s.depth := fun _ => rfl
  rcases enter_alike p hroom with ⟨h, h'⟩ | ⟨_, ⟨h, h'⟩ | ⟨h, h'⟩⟩ <;> rw [h, h'] <;> rfl

theorem nested {m : Eval (σ × τ) α stack} {m' : Eval σ α stack} (hm : Projects m m') :
    Projects (nested m) (nested m') := by
  intro s
  have hdeeper : m' (deeper s.project) = projectEnd (m (deeper s)) := hm (deeper s)
  by_cases hroom : stack.hasRoom .evaluation (s.depth + 1) = true
  · have hroom' : stack.hasRoom .evaluation (s.project.depth + 1) = true := hroom
    rw [nested_of_room hroom, nested_of_room hroom', hdeeper]
    cases m (deeper s) <;> rfl
  · have hroom' : ¬stack.hasRoom .evaluation (s.project.depth + 1) = true := hroom
    rw [nested_of_not_room hroom, nested_of_not_room hroom']
    rfl

variable (σ τ stack) in
theorem respects :
    Respects (fun _ => True) fun _ (m : Eval (σ × τ) _ stack) (m' : Eval σ _ stack) =>
      Projects m m' where
  answer := answer
  sequence := sequence
  flag _ := rfl
  problem p _ := enter p
  step _ _ _ := rfl

variable {carrier : Setting (σ × τ)} {setting : Setting σ} (h : carrier.Carries setting)
include h

theorem rollDice (count : Int) (faces : Nat) :
    Projects (rollDice carrier count faces : Eval (σ × τ) Float stack)
      (rollDice setting count faces) := by
  intro s
  obtain ⟨hvalues, hdice⟩ := h.source.drawMany faces count.natAbs s.dice
  have htotal : rollTotal setting count faces s.project = rollTotal carrier count faces s := by
    rw [rollTotal, rollTotal, hvalues]
    rfl
  have hline : rollLine setting count faces s.project = rollLine carrier count faces s := by
    rw [rollLine, rollLine, htotal, hvalues, h.limits]
    rfl
  have hafter : afterRoll setting count faces s.project =
      (afterRoll carrier count faces s).project := by
    rw [afterRoll, afterRoll, hline]
    simp only [Progress.project, hdice]
  rw [rollDice_apply, rollDice_apply, htotal, hafter]
  cases intToDouble? (rollTotal carrier count faces s) <;> rfl

theorem roll (count sides : Float) :
    Projects (roll carrier count sides : Eval (σ × τ) Float stack) (roll setting count sides) :=
  (respects σ τ stack).roll_of_rollDice (by rw [h.limits]) (fun _ _ => trivial)
    (fun _ _ => trivial) (rollDice h)

variable (stack) in
theorem congruence : Congruence carrier setting fun _ (m : Eval _ _ stack) (m' : Eval _ _ stack) =>
    Projects m m' where
  toRespects := respects σ τ stack
  deeper := nested
  dice := roll h

end Projects

/-- An expression is evaluated in the same way whatever is carried along. -/
theorem exists_evaluateExpression_of_carries {carrier : Setting (σ × τ)} {setting : Setting σ}
    (hcarries : carrier.Carries setting) {dice after : σ} (extra : τ) {expression : Text}
    {e : Evaluation} (h : evaluateExpression setting dice expression stack = .ok (e, after)) :
    ∃ extra', evaluateExpression carrier (dice, extra) expression stack =
      .ok (e, after, extra') := by
  have hlimits := hcarries.limits
  have hproject : (evaluateBare setting expression.withoutBlanks : Eval σ Float stack) { dice } =
      projectEnd _ :=
    (Projects.congruence stack hcarries).evaluateBare (by rw [hlimits]) (by rw [hlimits])
      expression.withoutBlanks { dice := (dice, extra) }
  rcases evaluateExpression_returns.mp h with
    ⟨value, u, hu, rfl, rfl⟩ | ⟨fault, u, hu, hfault, rfl, rfl⟩
  all_goals
    rw [hproject] at hu
    cases hrun : (evaluateBare carrier expression.withoutBlanks : Eval (σ × τ) Float stack)
        { dice := (dice, extra) }
    all_goals
      rw [hrun] at hu
      cases hu
  · exact ⟨_, evaluateExpression_of_ok hrun⟩
  · exact ⟨_, evaluateExpression_of_exhausted hrun hfault⟩

theorem exists_evaluateExpression_alongside {setting : Setting σ} (tick : τ → τ) {dice after : σ}
    (extra : τ) {expression : Text} {e : Evaluation}
    (h : evaluateExpression setting dice expression stack = .ok (e, after)) :
    ∃ extra', evaluateExpression (setting.alongside tick) (dice, extra) expression stack =
      .ok (e, after, extra') :=
  exists_evaluateExpression_of_carries (setting.carries_alongside tick) extra h

/-! ## Keeping values -/

namespace Eval

/-- Keeps a value. -/
def keep (x : Float) : Eval (σ × List Float) Unit stack :=
  modify fun s => { s with dice := (s.dice.1, s.dice.2 ++ [x]) }

/-- Nested evaluation that keeps the value of every evaluation on the way. -/
def descendKeeping (setting : Setting σ) : Nat → Recur (σ × List Float) stack
  | 0, _, _ => unlessFailed (refuse (.tooDeep setting.limits.maxDepth))
  | levels + 1, entry, t =>
    unlessFailed do
      let x ← nested (step (setting.alongside id) (descendKeeping setting levels) entry t)
      keep x
      return x

end Eval

/-- Nested evaluation is the same whether or not the values are kept. -/
theorem projects_descendKeeping (setting : Setting σ) (levels : Nat) (entry : Entry) (t : Text) :
    Projects (descendKeeping setting levels entry t : Eval (σ × List Float) Float stack)
      (descend setting levels entry t) := by
  have h := Projects.congruence stack
    (setting.carries_alongside (id : List Float → List Float))
  induction levels generalizing entry t with
  | zero => exact h.unlessFailed (h.refuse trivial)
  | succ levels ih =>
    refine h.unlessFailed ?_
    have hstep := h.deeper (h.evalStep ih entry t)
    intro s
    rw [hstep s, bind_apply]
    cases (nested (step (setting.alongside id) (descendKeeping setting levels) entry t) :
      Eval _ _ stack) s <;> rfl

theorem stops_descendKeeping (setting : Setting σ) (levels : Nat) (entry : Entry) (t : Text) :
    Stops IsOne (descendKeeping setting levels entry t : Eval (σ × List Float) Float stack) := by
  induction levels generalizing entry t with
  | zero => exact (Settling.refuse _).guarded
  | succ levels ih =>
    have hstep : Settling IsOne (nested (step (setting.alongside id)
        (descendKeeping setting levels) entry t) : Eval (σ × List Float) Float stack) :=
      (settling_step ih entry t).nested
    refine Settling.guarded ⟨fun {s u x} hs h => ?_, fun {s u fault} hs h => ?_⟩
    · obtain ⟨y, v, hv, h⟩ := bind_eq_ok.mp h
      obtain ⟨hsettles, hone⟩ := hstep.ok hs hv
      cases h
      exact ⟨hsettles, hone⟩
    · rcases bind_eq_error.mp h with h | ⟨y, v, -, h⟩
      · exact hstep.fault hs h
      · cases h

end Reckoner

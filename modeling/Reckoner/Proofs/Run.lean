import Reckoner.Evaluation

/-!
# How steps run

One equation for each primitive step at a state, and the two ways a sequence of steps can
end. Proofs about evaluations go through these and never unfold the monad.
-/

namespace Reckoner

namespace Progress

variable {σ : Type} {stack : Stack} (s : Progress σ stack)

/-- The state with one more entry in its ledger, and with the flag up for a problem. -/
def add (e : Event) : Progress σ stack :=
  { s with ledger := { s.ledger.add e with failed := e.problem?.isSome || s.ledger.failed } }

/-- The state with the flag up. -/
def raised : Progress σ stack := { s with ledger := s.ledger.raise }

/-- Whether the flag is up. -/
abbrev failed : Bool := s.ledger.failed

@[simp] theorem add_dice (e : Event) : (s.add e).dice = s.dice := rfl

@[simp] theorem add_depth (e : Event) : (s.add e).depth = s.depth := rfl

@[simp] theorem add_shown (e : Event) : (s.add e).ledger.shown = s.ledger.shown := rfl

@[simp] theorem add_events (e : Event) :
    (s.add e).ledger.events = s.ledger.events ++ [e] := rfl

theorem failed_add_problem (p : Problem) : (s.add (.problem p)).failed = true := rfl

theorem failed_add_step (step : Step) : (s.add (.step step)).failed = s.failed := rfl

end Progress

namespace Eval

variable {σ α β : Type} {stack : Stack}

@[simp] theorem pure_apply (a : α) (s : Progress σ stack) :
    (pure a : Eval σ α stack) s = .ok a s := rfl

@[simp] theorem failed_apply (s : Progress σ stack) :
    (failed : Eval σ Bool stack) s = .ok s.failed s := rfl

@[simp] theorem enter_apply (p : Problem) (s : Progress σ) :
    enter p s = .ok () (s.add (.problem p)) := rfl

theorem require_of_room {use : StackUse} {depth : Nat} (h : stack.hasRoom use depth = true)
    (s : Progress σ stack) : require use depth s = .ok () s := by
  rw [require, dif_pos h]
  rfl

theorem require_of_not_room {use : StackUse} {depth : Nat}
    (h : ¬stack.hasRoom use depth = true) (s : Progress σ stack) :
    require use depth s = .error (.stackExhausted (Stack.ne_ample h)) s := by
  rw [require, dif_neg h]
  rfl

@[simp] theorem note_apply (step : Step) (s : Progress σ stack) :
    note step s = .ok () (s.add (.step step)) := rfl

@[simp] theorem throw_apply (fault : Fault stack) (s : Progress σ stack) :
    (throw fault : Eval σ α stack) s = .error fault s := rfl

@[simp] theorem refuse_apply (p : Problem) (s : Progress σ) :
    refuse p s = .ok 1.0 (s.add (.problem p)) := rfl

theorem bind_apply (m : Eval σ α stack) (k : α → Eval σ β stack) (s : Progress σ stack) :
    (m >>= k) s = match m s with
      | .ok a t => k a t
      | .error fault t => .error fault t := by
  show EStateM.bind m k s = _
  rw [EStateM.bind]
  cases m s <;> rfl

theorem bind_of_ok {m : Eval σ α stack} {s t : Progress σ stack} {a : α} (h : m s = .ok a t)
    (k : α → Eval σ β stack) : (m >>= k) s = k a t := by
  rw [bind_apply, h]

theorem bind_eq_ok {m : Eval σ α stack} {k : α → Eval σ β stack} {s u : Progress σ stack} {b : β} :
    (m >>= k) s = .ok b u ↔ ∃ a t, m s = .ok a t ∧ k a t = .ok b u := by
  rw [bind_apply]
  cases m s <;> simp [and_assoc]

theorem bind_eq_error {m : Eval σ α stack} {k : α → Eval σ β stack} {s u : Progress σ stack}
    {fault : Fault stack} :
    (m >>= k) s = .error fault u ↔
      m s = .error fault u ∨ ∃ a t, m s = .ok a t ∧ k a t = .error fault u := by
  rw [bind_apply]
  cases m s <;> simp [and_assoc]

@[simp] theorem failed_bind (k : Bool → Eval σ β stack) (s : Progress σ stack) :
    (failed >>= k) s = k s.failed s := bind_of_ok (failed_apply s) k

@[simp] theorem enter_bind (p : Problem) (k : Unit → Eval σ β) (s : Progress σ) :
    (enter p >>= k) s = k () (s.add (.problem p)) := bind_of_ok (enter_apply p s) k

@[simp] theorem note_bind (step : Step) (k : Unit → Eval σ β stack) (s : Progress σ stack) :
    (note step >>= k) s = k () (s.add (.step step)) := bind_of_ok (note_apply step s) k

/-- Room for entering a problem: for the call, and for the record that it makes. -/
def RoomForProblem (s : Progress σ stack) : Prop :=
  stack.hasRoom .problem s.depth = true ∧ stack.hasRoom .record s.depth = true

/-- A problem is entered, or the stack is exhausted before or behind the flag. -/
theorem enter_cases (p : Problem) (s : Progress σ stack) :
    RoomForProblem s ∧ enter p s = .ok () (s.add (.problem p)) ∨
      (stack.hasRoom .problem s.depth = true ∧ ¬stack.hasRoom .record s.depth = true ∧
        ∃ bounded, enter p s = .error (.stackExhausted bounded) s.raised) ∨
      (¬stack.hasRoom .problem s.depth = true ∧
        ∃ bounded, enter p s = .error (.stackExhausted bounded) s) := by
  have henter : enter p s = (require .problem s.depth >>= fun _ => do
      modify fun s => { s with ledger := s.ledger.raise }
      require .record s.depth
      modify fun s => { s with ledger := s.ledger.add (.problem p) } : Eval σ Unit stack) s := rfl
  by_cases hproblem : stack.hasRoom .problem s.depth = true
  · rw [bind_of_ok (require_of_room hproblem s)] at henter
    have hraise : enter p s = (require .record s.depth >>= fun _ =>
        modify fun s => { s with ledger := s.ledger.add (.problem p) } : Eval σ Unit stack)
          s.raised := henter
    by_cases hrecord : stack.hasRoom .record s.depth = true
    · rw [bind_of_ok (require_of_room hrecord s.raised)] at hraise
      exact .inl ⟨⟨hproblem, hrecord⟩, hraise⟩
    · rw [bind_apply, require_of_not_room hrecord] at hraise
      exact .inr (.inl ⟨hproblem, hrecord, _, hraise⟩)
  · rw [bind_apply, require_of_not_room hproblem] at henter
    exact .inr (.inr ⟨hproblem, _, henter⟩)

theorem enter_of_room {s : Progress σ stack} (h : RoomForProblem s) (p : Problem) :
    enter p s = .ok () (s.add (.problem p)) := by
  rcases enter_cases p s with ⟨-, hok⟩ | ⟨-, hrecord, -⟩ | ⟨hproblem, -⟩
  · exact hok
  · exact absurd h.2 hrecord
  · exact absurd h.1 hproblem

theorem enter_eq_ok {p : Problem} {s t : Progress σ stack} {a : Unit} :
    enter p s = .ok a t ↔ RoomForProblem s ∧ t = s.add (.problem p) := by
  rcases enter_cases p s with ⟨hroom, h⟩ | ⟨-, hrecord, _, h⟩ | ⟨hproblem, _, h⟩
  · simp [h, hroom, eq_comm]
  · simp [h, RoomForProblem, hrecord]
  · simp [h, RoomForProblem, hproblem]

theorem enter_eq_error {p : Problem} {s t : Progress σ stack} {fault : Fault stack}
    (h : enter p s = .error fault t) :
    fault.escaping = none ∧ (t = s ∨ t = s.raised) := by
  rcases enter_cases p s with ⟨-, hrun⟩ | ⟨-, -, _, hrun⟩ | ⟨-, _, hrun⟩ <;> rw [hrun] at h <;>
    cases h
  · exact ⟨rfl, .inr rfl⟩
  · exact ⟨rfl, .inl rfl⟩

/-- Where there is the same room a problem is entered in the same way. -/
theorem enter_alike {σ' : Type} (p : Problem) {s : Progress σ stack} {s' : Progress σ' stack}
    (h : ∀ use, stack.hasRoom use s'.depth = stack.hasRoom use s.depth) :
    (enter p s = .ok () (s.add (.problem p)) ∧ enter p s' = .ok () (s'.add (.problem p))) ∨
      ∃ bounded, (enter p s = .error (.stackExhausted bounded) s.raised ∧
          enter p s' = .error (.stackExhausted bounded) s'.raised) ∨
        enter p s = .error (.stackExhausted bounded) s ∧
          enter p s' = .error (.stackExhausted bounded) s' := by
  have hroom : RoomForProblem s' ↔ RoomForProblem s := by rw [RoomForProblem, RoomForProblem, h, h]
  rcases enter_cases p s with ⟨hs, hrun⟩ | ⟨hfirst, hsecond, bounded, hrun⟩ | ⟨hfirst, bounded, hrun⟩
  · exact .inl ⟨hrun, enter_of_room (hroom.mpr hs) p⟩
  all_goals
    rw [← h] at hfirst
    refine .inr ⟨bounded, ?_⟩
    rcases enter_cases p s' with ⟨hs', -⟩ | ⟨hfirst', -, _, hrun'⟩ | ⟨hfirst', _, hrun'⟩
  · exact absurd (hroom.mp hs').2 hsecond
  · exact .inl ⟨hrun, hrun'⟩
  · exact absurd hfirst hfirst'
  · exact absurd hs'.1 hfirst
  · exact absurd hfirst' hfirst
  · exact .inr ⟨hrun, hrun'⟩

/-- What enters a problem at its end does not end without one. -/
theorem failed_of_enter_return {p : Problem} {s u : Progress σ stack} {a b : α}
    (h : (do enter p; return a : Eval σ α stack) s = .ok b u) : u.failed = true := by
  obtain ⟨_, v, hv, h⟩ := bind_eq_ok.mp h
  obtain ⟨-, rfl⟩ := enter_eq_ok.mp hv
  cases h
  exact Progress.failed_add_problem _ p

theorem unlessFailed_apply (next : Eval σ Float stack) (s : Progress σ stack) :
    unlessFailed next s = if s.failed then .ok 1.0 s else next s := by
  rw [unlessFailed, failed_bind]
  split <;> rfl

theorem unlessFailed_of_failed {s : Progress σ stack} (h : s.failed = true)
    (next : Eval σ Float stack) :
    unlessFailed next s = .ok 1.0 s := by
  rw [unlessFailed_apply, if_pos h]

theorem unlessFailed_of_not_failed {s : Progress σ stack} (h : s.failed = false)
    (next : Eval σ Float stack) :
    unlessFailed next s = next s := by
  rw [unlessFailed_apply, h]
  rfl

theorem unlessFailed_unlessFailed (m : Eval σ Float stack) :
    unlessFailed (unlessFailed m) = unlessFailed m := by
  funext s
  rw [unlessFailed_apply, unlessFailed_apply]
  split <;> rfl

theorem noteUnlessFailed_apply (step : Step) (s : Progress σ stack) :
    noteUnlessFailed step s = .ok () (if s.failed then s else s.add (.step step)) := by
  rw [noteUnlessFailed, failed_bind]
  cases s.failed <;> rfl

/-- Between two texts the neighbours of a group are known. -/
theorem insertValue_between (before inner after fragment : Text) (value : Float) :
    (insertValue (.between before inner after) fragment value : Eval σ Text stack) = do
      note (.groupValue fragment value)
      return before ++ (timesBeside before.getLast? ++ literalText value ++
        timesBeside after.head?) ++ after := rfl

theorem resolveGroups_of_uneven {recur : Recur σ stack} {t : Text} (h : t.count '(' ≠ t.count ')') :
    resolveGroups recur t = if t.count '[' = t.count ']' then do
        enter (.unbalancedParentheses t)
        return t
      else do
        enter (.unbalancedParentheses t)
        enter (.unbalancedBrackets t)
        return t := by
  by_cases hs : t.count '[' = t.count ']' <;> simp [resolveGroups, h, hs]

theorem resolveGroups_of_even {recur : Recur σ stack} {t : Text} (h : t.count '(' = t.count ')') :
    resolveGroups recur t = if t.count '[' = t.count ']' then foldGroups recur (t.count ')') t
      else do
        enter (.unbalancedBrackets t)
        return t := by
  by_cases hs : t.count '[' = t.count ']' <;> simp [resolveGroups, h, hs]

/-- A text without groups stays as it is. -/
theorem resolveGroups_of_no_group {recur : Recur σ stack} {t : Text} (ho : '(' ∉ t) (hc : ')' ∉ t)
    (hs : t.count '[' = t.count ']') : resolveGroups recur t = pure t := by
  have hopen : t.count '(' = 0 := List.count_eq_zero_of_not_mem ho
  have hclose : t.count ')' = 0 := List.count_eq_zero_of_not_mem hc
  rw [resolveGroups_of_even (hopen.trans hclose.symm), if_pos hs, hclose]
  rfl

/-- One level deeper, as `nested` starts its step. -/
def deeper (s : Progress σ stack) : Progress σ stack :=
  { s with depth := s.depth + 1, deepest := max s.deepest (s.depth + 1) }

/-- Back at a depth, as `nested` leaves its step. -/
def atDepth (depth : Nat) (s : Progress σ stack) : Progress σ stack := { s with depth }

theorem nested_of_room {step : Eval σ α stack} {s : Progress σ stack}
    (h : stack.hasRoom .evaluation (s.depth + 1) = true) :
    nested step s = match step (deeper s) with
      | .ok a t => .ok a (atDepth s.depth t)
      | .error fault t => .error fault (atDepth s.depth t) := by
  rw [nested]
  exact dif_pos h

theorem nested_of_not_room {step : Eval σ α stack} {s : Progress σ stack}
    (h : ¬stack.hasRoom .evaluation (s.depth + 1) = true) :
    nested step s = .error (.stackExhausted (Stack.ne_ample h)) s := by
  rw [nested]
  exact dif_neg h

theorem nested_apply (step : Eval σ α) (s : Progress σ) :
    nested step s = match step (deeper s) with
      | .ok a t => .ok a (atDepth s.depth t)
      | .error fault t => .error fault (atDepth s.depth t) := by
  rw [nested_of_room rfl]
  cases step (deeper s) <;> rfl

theorem nested_eq_ok {step : Eval σ α stack} {s u : Progress σ stack} {a : α} :
    nested step s = .ok a u ↔ stack.hasRoom .evaluation (s.depth + 1) = true ∧
      ∃ t, step (deeper s) = .ok a t ∧ u = atDepth s.depth t := by
  by_cases h : stack.hasRoom .evaluation (s.depth + 1) = true
  · rw [nested_of_room h]
    cases step (deeper s) <;> simp [h, and_assoc, eq_comm]
  · simp [nested_of_not_room h, h]

/-- A nested step ends in a fault where the stack is exhausted, or in a fault of its own. -/
theorem nested_eq_error {step : Eval σ α stack} {s u : Progress σ stack} {fault : Fault stack}
    (h : nested step s = .error fault u) :
    fault.escaping = none ∧ u = s ∨
      ∃ t, step (deeper s) = .error fault t ∧ u = atDepth s.depth t := by
  by_cases hroom : stack.hasRoom .evaluation (s.depth + 1) = true
  · rw [nested_of_room hroom] at h
    cases hrun : step (deeper s) with
    | ok a t => rw [hrun] at h; cases h
    | error fault' t =>
      rw [hrun] at h
      cases h
      exact .inr ⟨t, rfl, rfl⟩
  · rw [nested_of_not_room hroom] at h
    cases h
    exact .inl ⟨rfl, rfl⟩

theorem evaluateExpression_of_ok {setting : Setting σ} {dice : σ} {t : Text} {value : Float}
    {u : Progress σ stack} (h : evaluateBare setting t.withoutBlanks { dice } = .ok value u) :
    evaluateExpression setting dice t stack =
      .ok ({ expression := t, value, ledger := u.ledger }, u.dice) := by
  simp only [evaluateExpression, h]

theorem evaluateExpression_of_escaping {setting : Setting σ} {dice : σ} {t : Text}
    {fault : Fault stack} {escaped : Fault} {u : Progress σ stack}
    (h : evaluateBare setting t.withoutBlanks { dice } = .error fault u)
    (hfault : fault.escaping = some escaped) :
    evaluateExpression setting dice t stack = .error escaped := by
  simp only [evaluateExpression, h, hfault]

theorem evaluateExpression_of_exhausted {setting : Setting σ} {dice : σ} {t : Text}
    {fault : Fault stack} {u : Progress σ stack}
    (h : evaluateBare setting t.withoutBlanks { dice } = .error fault u)
    (hfault : fault.escaping = none) :
    evaluateExpression setting dice t stack =
      .ok ({ expression := t, ledger := u.ledger.raise.add (.problem .tooComplex) }, u.dice) := by
  simp only [evaluateExpression, h, hfault]

/-- An evaluation that returns is a run without the blanks, to its end or up to where the stack
is exhausted. -/
theorem evaluateExpression_returns {setting : Setting σ} {dice after : σ} {t : Text}
    {e : Evaluation} :
    evaluateExpression setting dice t stack = .ok (e, after) ↔
      (∃ value, ∃ u : Progress σ stack,
        evaluateBare setting t.withoutBlanks { dice } = .ok value u ∧
        e = { expression := t, value, ledger := u.ledger } ∧ after = u.dice) ∨
      ∃ fault, ∃ u : Progress σ stack,
        evaluateBare setting t.withoutBlanks { dice } = .error fault u ∧
        fault.escaping = none ∧
        e = { expression := t, ledger := u.ledger.raise.add (.problem .tooComplex) } ∧
        after = u.dice := by
  cases hrun : (evaluateBare setting t.withoutBlanks : Eval σ Float stack) { dice } with
  | ok value u => simp [evaluateExpression_of_ok hrun, and_assoc, eq_comm]
  | error fault u =>
    cases hfault : fault.escaping with
    | some escaped => simp [evaluateExpression_of_escaping hrun hfault, hfault]
    | none => simp [evaluateExpression_of_exhausted hrun hfault, hfault, and_assoc, eq_comm]

/-- The state in which a run ends. -/
def lastState : EStateM.Result (Fault stack) (Progress σ stack) α → Progress σ stack
  | .ok _ t => t
  | .error _ t => t

theorem lastState_nested (step : Eval σ α) (s : Progress σ) :
    lastState (nested step s) = atDepth s.depth (lastState (step (deeper s))) := by
  rw [nested_apply]
  cases step (deeper s) <;> rfl

/-- A nested step that there is no room for leaves the state as it is. -/
theorem lastState_nested_cases (step : Eval σ α stack) (s : Progress σ stack) :
    lastState (nested step s) = atDepth s.depth (lastState (step (deeper s))) ∨
      lastState (nested step s) = s := by
  by_cases h : stack.hasRoom .evaluation (s.depth + 1) = true
  · left
    rw [nested_of_room h]
    cases step (deeper s) <;> rfl
  · right
    rw [nested_of_not_room h]
    rfl

theorem lastState_enter_cases (p : Problem) (s : Progress σ stack) :
    lastState (enter p s) = s.add (.problem p) ∨ lastState (enter p s) = s.raised ∨
      lastState (enter p s) = s := by
  rcases enter_cases p s with ⟨-, h⟩ | ⟨-, -, _, h⟩ | ⟨-, _, h⟩ <;> rw [h]
  · exact .inl rfl
  · exact .inr (.inl rfl)
  · exact .inr (.inr rfl)

/-- On an ample stack a fault is what the evaluation ends in. -/
theorem escaping_ample (fault : Fault) : fault.escaping = some fault := by
  cases fault with
  | stackExhausted bounded => exact absurd rfl bounded
  | _ => rfl

theorem evaluateExpression_ample (setting : Setting σ) (dice : σ) (t : Text) :
    evaluateExpression setting dice t =
      match evaluateBare setting t.withoutBlanks ({ dice } : Progress σ) with
      | .ok value s => .ok ({ expression := t, value, ledger := s.ledger }, s.dice)
      | .error fault _ => .error fault := by
  cases hrun : evaluateBare setting t.withoutBlanks ({ dice } : Progress σ) with
  | ok value s => exact evaluateExpression_of_ok hrun
  | error fault s => exact evaluateExpression_of_escaping hrun (escaping_ample fault)

/-- An evaluation that returns is a run of the evaluator without the blanks. -/
theorem evaluateExpression_eq_ok {setting : Setting σ} {dice after : σ} {t : Text}
    {e : Evaluation} :
    evaluateExpression setting dice t = .ok (e, after) ↔
      ∃ value u, evaluateBare setting t.withoutBlanks ({ dice } : Progress σ) = .ok value u ∧
        e = { expression := t, value, ledger := u.ledger } ∧ after = u.dice := by
  rw [evaluateExpression_ample]
  cases evaluateBare setting t.withoutBlanks ({ dice } : Progress σ) <;> simp [and_assoc, eq_comm]

end Eval

end Reckoner

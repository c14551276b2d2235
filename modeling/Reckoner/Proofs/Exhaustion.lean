import Reckoner.Proofs.Reach

/-!
# Where the stack runs out

A stack cuts an evaluation short, and does nothing else to it. With the same text and dice a run
goes on as on an ample stack, to the same end, or to where there is no room; and then there was
none at a depth that the run on the ample stack gets to (`truncatedAtMost_evaluateBare`). So an
expression that is evaluated without a problem has the evaluation of the ample stack, which is
the case exactly if there is room for the levels that this takes (`success_iff_nests`).
-/

namespace Reckoner

open Eval

variable {σ α β : Type} {stack : Stack}

/-! ## The same run on a stack -/

/-- There is room for so many nested evaluations. -/
def Stack.Nests (stack : Stack) (levels : Nat) : Prop :=
  ∀ depth ≤ levels, stack.hasRoom .evaluation depth = true

theorem Stack.Holds.nests {levels : Nat} (h : stack.Holds levels) : stack.Nests levels :=
  fun depth hdepth => h .evaluation depth hdepth

theorem Stack.Nests.mono {fewer levels : Nat} (h : stack.Nests levels) (hle : fewer ≤ levels) :
    stack.Nests fewer := fun depth hdepth => h depth (hdepth.trans hle)

theorem Stack.Nests.succ {levels : Nat} (h : stack.Nests levels)
    (hroom : stack.hasRoom .evaluation (levels + 1) = true) : stack.Nests (levels + 1) := by
  intro depth hdepth
  rcases Nat.le_succ_iff.mp hdepth with hwithin | rfl
  · exact h depth hwithin
  · exact hroom

theorem Stack.holds_ofLevels (levels : Nat) : (Stack.ofLevels levels).Holds levels := by
  intro use depth hdepth
  simp [ofLevels, hasRoom, hdepth]

/-- The state on a stack. -/
def Progress.onStack (stack : Stack) (s : Progress σ) : Progress σ stack :=
  { ledger := s.ledger, dice := s.dice, depth := s.depth, deepest := s.deepest }

namespace Eval

/-- The end of a run on a stack. -/
def endOnStack (stack : Stack) : EStateM.Result Fault (Progress σ) α →
    EStateM.Result (Fault stack) (Progress σ stack) α
  | .ok a t => .ok a (t.onStack stack)
  | .error fault t => .error fault.onStack (t.onStack stack)

/-- The stack has no room for what was done up to a state: for a nested evaluation at a depth
that was got to, or for a problem. -/
def Lacks (stack : Stack) (t : Progress σ) : Prop :=
  ∃ use depth, depth ≤ t.deepest ∧ (use = .evaluation ∨ t.failed = true) ∧
    ¬stack.hasRoom use depth = true

/-- How a run on a stack may end that ends in `whole` on an ample one. -/
inductive Truncated (s : Progress σ) (r : EStateM.Result (Fault stack) (Progress σ stack) α)
    (whole : EStateM.Result Fault (Progress σ) α) : Prop where
  /-- In the same way, and there was room for all levels. -/
  | spared (hend : r = endOnStack stack whole)
    (hroom : ∀ depth, s.deepest < depth → depth ≤ (lastState whole).deepest →
      stack.hasRoom .evaluation depth = true)
  /-- On the way there. -/
  | short (hexhausted : IsExhausted r)
    (hevents : (lastState r).ledger.events <+: (lastState whole).ledger.events)
    (hdeepest : (lastState r).deepest ≤ (lastState whole).deepest)
    (hlacks : Lacks stack (lastState whole))

namespace Truncated

variable {s : Progress σ} {r : EStateM.Result (Fault stack) (Progress σ stack) α}
  {whole : EStateM.Result Fault (Progress σ) α}

theorem events (h : Truncated s r whole) :
    (lastState r).ledger.events <+: (lastState whole).ledger.events := by
  cases h with
  | spared hend =>
    rw [hend]
    cases whole <;> exact List.prefix_rfl
  | short _ hevents => exact hevents

theorem deepest (h : Truncated s r whole) :
    (lastState r).deepest ≤ (lastState whole).deepest := by
  cases h with
  | spared hend =>
    rw [hend]
    cases whole <;> exact le_refl _
  | short _ _ hdeepest => exact hdeepest

end Truncated

/-- On the stack a step does what it does on an ample one, and at most it is cut short. -/
structure TruncatedAtMost (m : Eval σ α stack) (m' : Eval σ α) : Prop where
  onward : ∀ s, Onward s (lastState (m' s))
  truncated : ∀ s : Progress σ, s.depth ≤ s.deepest → Truncated s (m (s.onStack stack)) (m' s)

theorem Lacks.onward {s t : Progress σ} (h : Lacks stack s) (hst : Onward s t) :
    Lacks stack t := by
  obtain ⟨use, depth, hdepth, huse, hroom⟩ := h
  exact ⟨use, depth, hdepth.trans hst.deepest, huse.imp_right hst.failed, hroom⟩

namespace TruncatedAtMost

/-- A step that does not look at the stack. -/
theorem of_blind {m : Eval σ α stack} {m' : Eval σ α}
    (honward : ∀ s, Onward s (lastState (m' s)))
    (hdeepest : ∀ s, (lastState (m' s)).deepest = s.deepest)
    (h : ∀ s : Progress σ, m (s.onStack stack) = endOnStack stack (m' s)) :
    TruncatedAtMost m m' where
  onward := honward
  truncated s _ :=
    .spared (h s) fun _ hlt hle => absurd (hle.trans (hdeepest s).le) (not_le.mpr hlt)

theorem answer (a : α) : TruncatedAtMost (pure a : Eval σ α stack) (pure a) :=
  of_blind keptByEntries_onward.refl (fun _ => rfl) fun _ => rfl

theorem enter (p : Problem) : TruncatedAtMost (enter p : Eval σ Unit stack) (enter p) where
  onward := keptByEntries_onward.enter p trivial
  truncated s hs := by
    have hfailed : (lastState (Eval.enter p s)).failed = true := s.failed_add_problem p
    have hlacks : ∀ use, ¬stack.hasRoom use s.depth = true →
        Lacks stack (lastState (Eval.enter p s)) := fun use hroom =>
      ⟨use, s.depth, hs, .inr hfailed, hroom⟩
    rcases enter_cases p (s.onStack stack) with ⟨-, h⟩ | ⟨-, hroom, _, h⟩ | ⟨hroom, _, h⟩ <;> rw [h]
    · exact .spared rfl fun depth hlt hle => absurd hle (not_le.mpr hlt)
    · exact .short ⟨_, _, rfl, rfl⟩ (List.prefix_append _ _) (le_refl _) (hlacks _ hroom)
    · exact .short ⟨_, _, rfl, rfl⟩ (List.prefix_append _ _) (le_refl _) (hlacks _ hroom)

theorem sequence {m : Eval σ α stack} {m' : Eval σ α} {k : α → Eval σ β stack}
    {k' : α → Eval σ β} (hm : TruncatedAtMost m m') (hk : ∀ a, TruncatedAtMost (k a) (k' a)) :
    TruncatedAtMost (m >>= k) (m' >>= k') where
  onward := keptByEntries_onward.sequence hm.onward fun a => (hk a).onward
  truncated s hs := by
    have hstart := hm.onward s
    have hfirst := hm.truncated s hs
    rw [bind_apply, bind_apply]
    cases hrun : m' s with
    | error fault t =>
      rw [hrun] at hfirst
      cases hfirst with
      | spared hend hroom =>
        rw [hend]
        exact .spared rfl hroom
      | short hexhausted hevents hdeepest hlacks =>
        obtain ⟨_, u, hu, hcaught⟩ := hexhausted
        rw [hu] at hevents hdeepest ⊢
        exact .short ⟨_, _, rfl, hcaught⟩ hevents hdeepest hlacks
    | ok a t =>
      rw [hrun] at hstart hfirst
      have hnext : Onward t (lastState (k' a t)) := (hk a).onward t
      cases hfirst with
      | spared hend hroom =>
        rw [hend]
        have hdepth : t.depth ≤ t.deepest := hstart.depth.le.trans (hs.trans hstart.deepest)
        have hsecond := (hk a).truncated t hdepth
        cases hsecond with
        | spared hend' hroom' =>
          refine .spared hend' fun depth hlt hle => ?_
          rcases Nat.lt_or_ge t.deepest depth with hlater | hearlier
          · exact hroom' depth hlater hle
          · exact hroom depth hlt hearlier
        | short hexhausted hevents hdeepest hlacks =>
          exact .short hexhausted hevents hdeepest hlacks
      | short hexhausted hevents hdeepest hlacks =>
        obtain ⟨_, u, hu, hcaught⟩ := hexhausted
        rw [hu] at hevents hdeepest ⊢
        exact .short ⟨_, _, rfl, hcaught⟩ (hevents.trans hnext.events)
          (hdeepest.trans hnext.deepest) (hlacks.onward hnext)

theorem nested {m : Eval σ α stack} {m' : Eval σ α} (hm : TruncatedAtMost m m') :
    TruncatedAtMost (nested m) (nested m') where
  onward s := by
    rw [lastState_nested]
    exact (hm.onward (deeper s)).nested
  truncated s hs := by
    have hnext : Onward (deeper s) (lastState (m' (deeper s))) := hm.onward (deeper s)
    have hreached : s.depth + 1 ≤ (lastState (m' (deeper s))).deepest :=
      (le_max_right _ _).trans hnext.deepest
    have hwhole : lastState (Eval.nested m' s) = atDepth s.depth (lastState (m' (deeper s))) :=
      lastState_nested m' s
    by_cases hroom : stack.hasRoom .evaluation (s.depth + 1) = true
    · rw [nested_of_room (s := s.onStack stack) hroom, nested_apply]
      have hdeeper : deeper (s.onStack stack) = (deeper s).onStack stack := rfl
      rw [hdeeper]
      rw [nested_apply] at hwhole
      have hinner := hm.truncated (deeper s) (le_max_right _ _)
      cases hinner with
      | spared hend hlevels =>
        rw [hend]
        generalize m' (deeper s) = r at hwhole hlevels hnext hreached ⊢
        refine .spared (by cases r <;> rfl) fun depth hlt hle => ?_
        rw [hwhole] at hle
        rcases Nat.lt_or_ge (deeper s).deepest depth with hlater | hearlier
        · exact hlevels depth hlater hle
        · -- the only new level up to here is that of the nested step itself
          obtain rfl : depth = s.depth + 1 := by
            have hmax : depth ≤ max s.deepest (s.depth + 1) := hearlier
            omega
          exact hroom
      | short hexhausted hevents hdeepest hlacks =>
        obtain ⟨_, u, hu, hcaught⟩ := hexhausted
        rw [hu] at hevents hdeepest ⊢
        refine .short ⟨_, _, rfl, hcaught⟩ ?_ ?_ ?_ <;> rw [hwhole]
        · exact hevents
        · exact hdeepest
        · exact hlacks
    · rw [nested_of_not_room (s := s.onStack stack) hroom]
      refine .short ⟨_, _, rfl, rfl⟩ ?_ ?_ ⟨.evaluation, s.depth + 1, ?_, .inl rfl, hroom⟩
      all_goals rw [hwhole]
      · exact hnext.events
      · exact (le_max_left _ _).trans hnext.deepest
      · exact hreached

theorem rollDice (setting : Setting σ) (count : Int) (faces : Nat) :
    TruncatedAtMost (rollDice setting count faces : Eval σ Float stack)
      (rollDice setting count faces) := by
  refine of_blind (fun s => ?_) (fun s => ?_) fun s => ?_
  · rw [lastState_rollDice]
    exact (kept_onward setting).line s count faces
  · rw [lastState_rollDice]
    rfl
  · have htotal : rollTotal setting count faces (s.onStack stack) =
        rollTotal setting count faces s := rfl
    rw [rollDice_apply, rollDice_apply, htotal]
    cases intToDouble? (rollTotal setting count faces s) <;> rfl

variable (σ stack) in
theorem respects :
    Respects (fun _ => True) fun _ (m : Eval σ _ stack) m' => TruncatedAtMost m m' where
  answer := answer
  sequence := sequence
  flag := of_blind keptByEntries_onward.refl (fun _ => rfl) fun _ => rfl
  problem p _ := enter p
  step step _ := of_blind (fun s => keptByEntries_onward.step s step trivial) (fun _ => rfl)
    fun _ => rfl

variable (stack) in
theorem congruence (setting : Setting σ) :
    Congruence setting setting fun _ (m : Eval σ _ stack) m' => TruncatedAtMost m m' where
  toRespects := respects σ stack
  deeper := nested
  dice _ _ := (respects σ stack).roll_of_rollDice rfl (fun _ _ => trivial) (fun _ _ => trivial)
    (rollDice setting)

end TruncatedAtMost

/-- **Runs on a stack.** They end as on an ample stack, or they are cut short for want of room. -/
theorem truncatedAtMost_evaluateBare (stack : Stack) (setting : Setting σ) (t : Text) :
    TruncatedAtMost (evaluateBare setting t : Eval σ Float stack) (evaluateBare setting t) :=
  (TruncatedAtMost.congruence stack setting).evaluateBare rfl rfl t

end Eval

/-! ## Evaluations on a stack -/

theorem Stack.hasRoom_zero (stack : Stack) (use : StackUse) : stack.hasRoom use 0 = true := by
  cases stack <;> rfl

/-- From the start a stack has room for all levels where it has for those that were taken. -/
theorem Stack.nests_of_forall {levels : Nat}
    (h : ∀ depth, 0 < depth → depth ≤ levels → stack.hasRoom .evaluation depth = true) :
    stack.Nests levels := by
  intro depth hdepth
  rcases Nat.eq_zero_or_pos depth with rfl | hpos
  · exact stack.hasRoom_zero .evaluation
  · exact h depth hpos hdepth

variable {setting : Setting σ} {dice after : σ} {expression : Text} {e : Evaluation}

variable (setting dice expression stack) in
/-- **Evaluations on a stack.** An expression has the evaluation of the ample stack, if there is
room for the levels that this takes, or else it may be too complex: then its entries are some of
the first ones of that evaluation, and this problem. -/
theorem evaluateExpression_truncated :
    stack.Nests (levelsTaken setting dice expression) ∧
        evaluateExpression setting dice expression stack =
          evaluateExpression setting dice expression ∨
      Lacks stack (ending setting dice expression) ∧
        ∃ e after entries, evaluateExpression setting dice expression stack = .ok (e, after) ∧
          e.failed = true ∧ entries <+: (ending setting dice expression).ledger.events ∧
          e.ledger.events = entries ++ [.problem .tooComplex] := by
  have hcut := (truncatedAtMost_evaluateBare stack setting expression.withoutBlanks).truncated
    { dice } (le_refl 0)
  have hstart : Progress.onStack stack ({ dice } : Progress σ) = { dice } := rfl
  rw [hstart] at hcut
  cases hcut with
  | spared hend hroom =>
    refine .inl ⟨Stack.nests_of_forall hroom, ?_⟩
    rw [evaluateExpression_ample]
    cases hrun : evaluateBare setting expression.withoutBlanks ({ dice } : Progress σ) with
    | ok value u =>
      rw [hrun] at hend
      exact evaluateExpression_of_ok hend
    | error fault u =>
      rw [hrun] at hend
      refine evaluateExpression_of_escaping hend ?_
      cases fault with
      | stackExhausted bounded => exact absurd rfl bounded
      | _ => rfl
  | short hexhausted hevents _ hlacks =>
    obtain ⟨fault, u, hu, hcaught⟩ := hexhausted
    rw [hu] at hevents
    exact .inr ⟨hlacks, _, _, u.ledger.events, evaluateExpression_of_exhausted hu hcaught, rfl,
      hevents, rfl⟩

/-- Where there is room for everything up to the depth that an evaluation gets to, it is the
evaluation of the ample stack. -/
theorem evaluateExpression_of_holds {levels : Nat} (h : stack.Holds levels)
    (hlevels : levelsTaken setting dice expression ≤ levels) :
    evaluateExpression setting dice expression stack =
      evaluateExpression setting dice expression := by
  rcases evaluateExpression_truncated stack setting dice expression with ⟨-, heq⟩ | ⟨hlacks, -⟩
  · exact heq
  · obtain ⟨use, depth, hdepth, -, hroom⟩ := hlacks
    exact absurd (h use depth (hdepth.trans hlevels)) hroom

/-- **Success on a stack.** Without a problem, an evaluation on a stack is the one on the ample
stack, for whose levels there is room. -/
theorem success_iff_nests :
    evaluateExpression setting dice expression stack = .ok (e, after) ∧ e.failed = false ↔
      (evaluateExpression setting dice expression = .ok (e, after) ∧ e.failed = false) ∧
        stack.Nests (levelsTaken setting dice expression) := by
  have hcut := evaluateExpression_truncated stack setting dice expression
  constructor
  · rintro ⟨h, he⟩
    rcases hcut with ⟨hnests, heq⟩ | ⟨-, e', after', _, h', he', -⟩
    · exact ⟨⟨heq.symm.trans h, he⟩, hnests⟩
    · rw [h] at h'
      cases h'
      cases he'.symm.trans he
  · rintro ⟨⟨h, he⟩, hnests⟩
    refine ⟨?_, he⟩
    rcases hcut with ⟨-, heq⟩ | ⟨⟨use, depth, hdepth, huse, hroom⟩, -⟩
    · exact heq.trans h
    · obtain ⟨value, u, hrun, rfl, -⟩ := evaluateExpression_eq_ok.mp h
      have hclear : (ending setting dice expression).failed = false := by
        rw [ending, hrun]
        exact he
      rcases huse with rfl | hfailed
      · exact absurd (hnests depth hdepth) hroom
      · cases hfailed.symm.trans hclear

/-- Where the evaluation on the ample stack rolls nothing, one on a stack rolls nothing either,
and leaves the dice as they were. -/
theorem evaluateExpression_of_no_rolls
    (h : evaluateExpression setting dice expression = .ok (e, after))
    (hrolls : e.ledger.rolls = []) :
    ∃ e', evaluateExpression setting dice expression stack = .ok (e', dice) ∧
      e'.ledger.rolls = [] := by
  rcases evaluateExpression_truncated stack setting dice expression with
    ⟨-, heq⟩ | ⟨-, e', after', entries, h', -, hprefix, hevents⟩
  · obtain rfl : after = dice :=
      (replay_of_evaluateExpression h).trans (Source.replay_of_no_rolls _ hrolls dice)
    exact ⟨e, heq.trans h, hrolls⟩
  · obtain ⟨value, u, hrun, rfl, -⟩ := evaluateExpression_eq_ok.mp h
    rw [ending, hrun] at hprefix
    have hsome := hprefix.filterMap Event.roll?
    rw [show (lastState (EStateM.Result.ok value u)).ledger.events.filterMap Event.roll? = [] from
      hrolls, List.prefix_nil] at hsome
    have hnone : e'.ledger.rolls = [] := by
      rw [Ledger.rolls, hevents, List.filterMap_append, hsome]
      rfl
    obtain rfl : after' = dice :=
      (replay_of_evaluateExpression h').trans (Source.replay_of_no_rolls _ hnone dice)
    exact ⟨e', h', hnone⟩

end Reckoner

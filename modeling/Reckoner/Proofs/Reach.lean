import Reckoner.Proofs.Growth
import Reckoner.Proofs.Outcome

/-!
# How deep an evaluation gets

The limit on the depth only bears on an evaluation that meets it. One that is never refused a
level goes on in the same way under every limit that allows the depth it gets to
(`evaluateBare_withDepth`). So to bound how deep an evaluation gets it is enough to find a limit
under which it is refused nothing (`evaluateExpression_of_granted`).
-/

namespace Reckoner

open Eval

variable {σ α β : Type} {stack : Stack}

/-! ## States that a run comes to -/

/-- A state that a run may come to from another one. -/
structure Onward (s t : Progress σ stack) : Prop where
  events : s.ledger.events <+: t.ledger.events
  failed : s.failed = true → t.failed = true
  depth : t.depth = s.depth
  deepest : s.deepest ≤ t.deepest

theorem keptByEntries_onward :
    KeptByEntries (fun _ => True) fun s t : Progress σ stack => Onward s t where
  refl _ := ⟨List.prefix_rfl, id, rfl, le_refl _⟩
  trans h h' := ⟨h.events.trans h'.events, h'.failed ∘ h.failed, h'.depth.trans h.depth,
    h.deepest.trans h'.deepest⟩
  raised _ := ⟨List.prefix_rfl, fun _ => rfl, rfl, le_refl _⟩
  problem _ _ _ := ⟨List.prefix_append _ _, fun _ => rfl, rfl, le_refl _⟩
  step s step _ := ⟨List.prefix_append _ _, (s.failed_add_step step).trans, rfl, le_refl _⟩

theorem Onward.nested {s t : Progress σ stack} (h : Onward (deeper s) t) :
    Onward s (atDepth s.depth t) :=
  ⟨h.events, h.failed, rfl, le_trans (le_max_left _ _) h.deepest⟩

theorem kept_onward (setting : Setting σ) :
    Kept setting fun s t : Progress σ stack => Onward s t where
  toKeptByEntries := keptByEntries_onward
  nested := .nested
  line _ _ _ := ⟨List.prefix_append _ _, id, rfl, le_refl _⟩

/-- A level has been refused. -/
def TooDeep (s : Progress σ stack) : Prop := ∃ most, .problem (.tooDeep most) ∈ s.ledger.events

theorem Onward.tooDeep {s t : Progress σ stack} (h : Onward s t) (hs : TooDeep s) : TooDeep t :=
  hs.imp fun _ hmem => h.events.subset hmem

/-! ## Shallow runs -/

section Shallow

variable {room : Nat} {setting : Setting σ}

namespace Eval

/-- A run ends at the depth that it started at, has gone `room` levels deeper at most, and was
not refused a level. -/
structure Shallow (room : Nat) (s u : Progress σ) : Prop where
  depth : u.depth = s.depth
  reach : u.deepest ≤ max s.deepest (s.depth + room)
  granted : ∀ most, .problem (.tooDeep most) ∈ u.ledger.events →
    .problem (.tooDeep most) ∈ s.ledger.events

/-- All runs of a step are shallow, however they end. -/
def StaysShallow (room : Nat) (m : Eval σ α) : Prop := ∀ s, Shallow room s (lastState (m s))

/-- Only the refusal of a level is a matter of depth. -/
theorem Shallow.add (s : Progress σ) {e : Event} (he : ∀ most, e ≠ .problem (.tooDeep most)) :
    Shallow room s (s.add e) where
  depth := rfl
  reach := le_max_left _ _
  granted most hmem := by
    rcases List.mem_append.mp hmem with hmem | hmem
    · exact hmem
    · exact absurd (List.mem_singleton.mp hmem).symm (he most)

theorem Shallow.roll (setting : Setting σ) (s : Progress σ) (n : Int) (faces : Nat) :
    Shallow room s (afterRoll setting n faces s) where
  depth := rfl
  reach := le_max_left _ _
  granted most hmem := by
    rcases List.mem_append.mp hmem with hmem | hmem
    · exact hmem
    · cases List.mem_singleton.mp hmem

variable (σ room) in
theorem keptByEntries_shallow : KeptByEntries (fun e => ∀ most, e ≠ .problem (.tooDeep most))
    (Shallow (σ := σ) room) where
  refl s := ⟨rfl, le_max_left _ _, fun _ => id⟩
  trans {s t u} h h' := by
    refine ⟨h'.depth.trans h.depth, ?_, fun most hmem => h.granted most (h'.granted most hmem)⟩
    have hfirst := h.reach
    have hsecond := h'.reach
    rw [h.depth] at hsecond
    omega
  raised s := ⟨rfl, le_max_left _ _, fun _ => id⟩
  problem s _ hp := .add s hp
  step s _ hstep := .add s hstep

namespace StaysShallow

variable (room) in
theorem respects : Respects (fun e => ∀ most, e ≠ .problem (.tooDeep most))
    fun _ (m _ : Eval σ _) => StaysShallow room m :=
  (keptByEntries_shallow σ room).respects

theorem answer (a : α) : StaysShallow room (pure a : Eval σ α) :=
  (keptByEntries_shallow σ room).refl

theorem sequence {β : Type} {m : Eval σ α} {k : α → Eval σ β} (hm : StaysShallow room m)
    (hk : ∀ a, StaysShallow room (k a)) : StaysShallow room (m >>= k) :=
  (keptByEntries_shallow σ room).sequence hm hk

theorem guarded {m : Eval σ Float} (hm : StaysShallow room m) :
    StaysShallow room (unlessFailed m) :=
  @Respects.unlessFailed σ σ _ _ _ _ (respects room) m m hm

theorem operand {recur : Recur σ} (neutral : Float) {t : Text}
    (hr : StaysShallow room (recur .operand t)) :
    StaysShallow room (Eval.operand recur neutral t) :=
  @Respects.operand σ σ _ _ _ _ (respects room) recur recur neutral t hr

theorem enter {p : Problem} (hp : ∀ most, p ≠ .tooDeep most) :
    StaysShallow (σ := σ) room (Eval.enter p) :=
  fun s => .add s fun most h => hp most (Event.problem.inj h)

theorem refuse {p : Problem} (hp : ∀ most, p ≠ .tooDeep most) :
    StaysShallow (σ := σ) room (Eval.refuse p) :=
  (enter hp).sequence fun _ => answer _

theorem mono {m : Eval σ α} {more : Nat} (hm : StaysShallow room m) (hle : room ≤ more) :
    StaysShallow more m := fun s =>
  ⟨(hm s).depth, by have := (hm s).reach; omega, (hm s).granted⟩

/-- One level deeper a step needs one level more. -/
theorem nested {m : Eval σ α} (hm : StaysShallow room m) :
    StaysShallow (room + 1) (Eval.nested m) := by
  intro s
  have hinner := hm (deeper s)
  have hdepth : (deeper s).depth = s.depth + 1 := rfl
  have hdeepest : (deeper s).deepest = max s.deepest (s.depth + 1) := rfl
  have hreach := hinner.reach
  rw [hdepth, hdeepest] at hreach
  rw [lastState_nested]
  refine ⟨rfl, ?_, hinner.granted⟩
  show (lastState (m (deeper s))).deepest ≤ _
  omega

theorem roll (count sides : Float) : StaysShallow room (Eval.roll setting count sides) :=
  (keptByEntries_shallow σ room).roll (.roll setting) (fun most h => by cases h)
    fun most h => by cases h

/-- No operator is refused for its depth. -/
theorem combine (o : Operator) (left right : Float) (fragment : Text) :
    StaysShallow room (Eval.combine setting o left right fragment) := by
  cases o with
  | plus => exact answer _
  | minus => exact answer _
  | times => exact answer _
  | dice => exact roll left right
  | divide =>
    rw [Eval.combine, divide]
    split_ifs
    · exact refuse fun most h => by cases h
    · exact answer _
  | modulo =>
    rw [Eval.combine, modulo]
    split_ifs
    · exact refuse fun most h => by cases h
    · exact refuse fun most h => by cases h
    · exact answer _
  | power =>
    rw [Eval.combine, raise]
    split_ifs
    · exact refuse fun most h => by cases h
    · split
      · exact answer _
      · exact refuse fun most h => by cases h
      · exact refuse fun most h => by cases h

end StaysShallow

end Eval

end Shallow

/-! ## Other limits on the depth -/

/-- The setting with another limit on the depth. -/
def Setting.withDepth (setting : Setting σ) (maxDepth : Int) : Setting σ :=
  { setting with limits := { setting.limits with maxDepth } }

/-- Rolls do not look at the limit on the depth. -/
theorem roll_withDepth (setting : Setting σ) (maxDepth : Int) (count sides : Float) :
    (roll (setting.withDepth maxDepth) count sides : Eval σ Float stack) =
      roll setting count sides := by
  refine respects_eq.roll_of_rollDice rfl (fun _ _ => trivial) (fun _ _ => trivial)
    fun n faces => ?_
  have hshown : ∀ shown length values, affordable (setting.withDepth maxDepth).limits shown length
      values = affordable setting.limits shown length values := affordable_congr rfl rfl
  unfold rollDice
  simp only [hshown]
  rfl

/-- With `levels` to spend the second step goes on as the first one, unless that is refused a
level or gets deeper. -/
structure Relevels (levels : Nat) (m m' : Eval σ α) : Prop where
  onward : ∀ s, Onward s (lastState (m s))
  same : ∀ s, ¬TooDeep (lastState (m s)) → (lastState (m s)).deepest ≤ s.depth + levels →
    m' s = m s

namespace Relevels

variable {levels : Nat} {setting : Setting σ}

theorem of_onward {m : Eval σ α} (hm : ∀ s, Onward s (lastState (m s))) : Relevels levels m m :=
  ⟨hm, fun _ _ _ => rfl⟩

theorem sequence {m m' : Eval σ α} {k k' : α → Eval σ β} (hm : Relevels levels m m')
    (hk : ∀ a, Relevels levels (k a) (k' a)) : Relevels levels (m >>= k) (m' >>= k') where
  onward := keptByEntries_onward.sequence hm.onward fun a => (hk a).onward
  same s hgranted hreach := by
    have hstart := hm.onward s
    have hfirst := hm.same s
    rw [bind_apply] at hgranted hreach ⊢
    rw [bind_apply]
    cases hrun : m s with
    | error fault t =>
      rw [hrun] at hfirst hgranted hreach
      rw [hfirst hgranted hreach]
    | ok a t =>
      rw [hrun] at hstart hfirst hgranted hreach
      have hnext : Onward t (lastState (k a t)) := (hk a).onward t
      have hdepth : t.depth = s.depth := hstart.depth
      rw [hfirst (fun h => hgranted (hnext.tooDeep h)) (hnext.deepest.trans hreach)]
      exact (hk a).same t hgranted (by rwa [hdepth])

variable (levels) in
theorem respects :
    Respects (fun _ => True) fun _ (m m' : Eval σ _) => Relevels levels m m' where
  answer _ := of_onward keptByEntries_onward.refl
  sequence := sequence
  flag := of_onward keptByEntries_onward.refl
  problem p _ := of_onward (keptByEntries_onward.enter p trivial)
  step step _ := of_onward fun s => keptByEntries_onward.step s step trivial

/-- One level deeper there is one level less to spend. -/
theorem nested {m m' : Eval σ α} (hm : Relevels levels m m') :
    Relevels (levels + 1) (nested m) (nested m') where
  onward s := by
    rw [lastState_nested]
    exact (hm.onward (deeper s)).nested
  same s hgranted hreach := by
    rw [lastState_nested] at hgranted hreach
    have hdepth : (deeper s).depth + levels = s.depth + (levels + 1) := by
      show s.depth + 1 + levels = _
      omega
    rw [nested_apply, nested_apply, hm.same (deeper s) hgranted (by rwa [hdepth])]

/-- A step that is refused a level, or takes more than there are, need not be followed. -/
theorem of_refusal {next next' : Eval σ Float} (honward : ∀ s, Onward s (lastState (next s)))
    (h : ∀ s : Progress σ, s.failed = false →
      TooDeep (lastState (next s)) ∨ s.depth + levels < (lastState (next s)).deepest) :
    Relevels levels (unlessFailed next) (unlessFailed next') where
  onward := @Respects.unlessFailed σ σ _ _ _ _ keptByEntries_onward.respects next next honward
  same s hgranted hreach := by
    cases hs : s.failed with
    | true => rw [unlessFailed_of_failed hs, unlessFailed_of_failed hs]
    | false =>
      rw [unlessFailed_of_not_failed hs] at hgranted hreach
      rcases h s hs with hrefused | hdeeper
      · exact absurd hrefused hgranted
      · omega

/-- **Nested evaluations** go on in the same way with more levels or with fewer. -/
theorem descend (setting : Setting σ) (maxDepth : Int) (levels levels' : Nat) (entry : Entry)
    (t : Text) : Relevels levels' (descend setting levels entry t)
      (descend (setting.withDepth maxDepth) levels' entry t) := by
  induction levels generalizing levels' entry t with
  | zero =>
    have hguarded : ∃ next : Eval σ Float,
        Eval.descend (setting.withDepth maxDepth) levels' entry t = unlessFailed next := by
      cases levels' <;> exact ⟨_, rfl⟩
    obtain ⟨next, hnext⟩ := hguarded
    rw [hnext]
    exact of_refusal (@Respects.refuse σ σ _ _ _ _ keptByEntries_onward.respects _ trivial)
      fun s _ => .inl ⟨_, List.mem_append_right _ (List.mem_singleton_self _)⟩
  | succ levels ih =>
    have hroll : ∀ levels' count sides, Relevels levels' (roll setting count sides)
        (roll (setting.withDepth maxDepth) count sides) := fun _ count sides => by
      rw [roll_withDepth]
      exact of_onward ((kept_onward setting).congruence.dice count sides)
    have hstep : ∀ levels', Relevels levels'
        (step setting (Eval.descend setting levels) entry t)
        (step (setting.withDepth maxDepth) (Eval.descend (setting.withDepth maxDepth) levels')
          entry t) := fun levels' =>
      (respects levels').evalStep (fun folded _ => .all folded) (fun entry u _ => ih levels' entry u)
        (fun _ _ _ => hroll levels') entry
    cases levels' with
    | succ levels' => exact (respects _).unlessFailed (hstep levels').nested
    | zero =>
      refine of_refusal (hstep 0).nested.onward fun s _ => .inr ?_
      rw [lastState_nested]
      exact Nat.lt_of_lt_of_le (Nat.lt_succ_self _)
        (le_trans (le_max_right _ _) ((hstep 0).onward (deeper s)).deepest)

end Relevels

/-- **Other limits on the depth.** A run that is never refused a level goes on in the same way
under every limit that allows as many levels as it takes. -/
theorem evaluateBare_withDepth {setting : Setting σ} {maxDepth : Int} {t : Text} {s : Progress σ}
    (hgranted : ¬TooDeep (lastState (evaluateBare setting t s)))
    (hreach : (lastState (evaluateBare setting t s)).deepest ≤ s.depth + maxDepth.toNat) :
    evaluateBare (setting.withDepth maxDepth) t s = evaluateBare setting t s := by
  have hevaluate : Relevels maxDepth.toNat (evaluate setting t)
      (evaluate (setting.withDepth maxDepth) t) := .descend setting maxDepth _ _ .whole t
  have hbare : Relevels maxDepth.toNat (evaluateBare setting t)
      (evaluateBare (setting.withDepth maxDepth) t) :=
    @Respects.evaluateBare σ σ _ _ _ _ (Relevels.respects _) setting (setting.withDepth maxDepth) rfl
      t (.all t) hevaluate
  exact hbare.same s hgranted hreach

/-! ## Levels of an evaluation -/

/-- The state in which an evaluation ends that has all the stack it needs. -/
def ending (setting : Setting σ) (dice : σ) (expression : Text) : Progress σ :=
  lastState (evaluateBare setting expression.withoutBlanks { dice })

/-- How many levels an evaluation takes that has all the stack it needs. -/
def levelsTaken (setting : Setting σ) (dice : σ) (expression : Text) : Nat :=
  (ending setting dice expression).deepest

/-- An evaluation that is not refused a level. -/
def Granted (setting : Setting σ) (dice : σ) (expression : Text) : Prop :=
  ¬TooDeep (ending setting dice expression)

variable {setting : Setting σ} {dice after : σ} {expression : Text}

theorem levelsTaken_le (setting : Setting σ) (dice : σ) (expression : Text) :
    levelsTaken setting dice expression ≤ setting.limits.maxDepth.toNat := by
  have hgrows : Grows setting setting.limits.maxDepth.toNat
      (evaluateBare setting expression.withoutBlanks : Eval σ Float) :=
    (Grows.respects _ setting _).evaluateBare rfl (.all _) (.evaluate setting _)
  have hdeepest := hgrows.deepest_le { dice }
  rwa [Nat.zero_add, Nat.zero_max] at hdeepest

/-- An evaluation with other problems only is granted all levels. -/
theorem granted_of_problems {e : Evaluation}
    (h : evaluateExpression setting dice expression = .ok (e, after))
    (he : ∀ most, .tooDeep most ∉ e.ledger.problems) : Granted setting dice expression := by
  obtain ⟨value, u, hrun, rfl, -⟩ := evaluateExpression_eq_ok.mp h
  rintro ⟨most, hmem⟩
  rw [ending, hrun] at hmem
  exact he most (Ledger.mem_problems.mpr hmem)

/-- So is one without a problem. -/
theorem granted_of_success {e : Evaluation}
    (h : evaluateExpression setting dice expression = .ok (e, after)) (he : e.failed = false) :
    Granted setting dice expression := by
  have hnone := (flagged_evaluateExpression setting h).failed_eq_false_iff.mp he
  exact granted_of_problems h fun most hmem => by rw [hnone] at hmem; cases hmem

/-- So is one that ends in a fault, which comes before any problem. -/
theorem granted_of_fault {fault : Fault}
    (h : evaluateExpression setting dice expression = .error fault) :
    Granted setting dice expression := by
  rw [evaluateExpression_ample] at h
  cases hrun : evaluateBare setting expression.withoutBlanks ({ dice } : Progress σ) with
  | ok value u => rw [hrun] at h; cases h
  | error fault' u =>
    obtain ⟨entries, hentries, hquiet⟩ := (settling_evaluateBare setting _).fault rfl hrun
    rintro ⟨most, hmem⟩
    rw [ending, hrun] at hmem
    have hevents : u.ledger.events = entries := hentries
    cases hquiet _ (hevents ▸ hmem)

/-- **Levels under other limits.** An evaluation that is granted all its levels is the same, and
takes as many, under every limit that allows them. -/
theorem evaluateExpression_withDepth (hgranted : Granted setting dice expression) {maxDepth : Int}
    (hreach : levelsTaken setting dice expression ≤ maxDepth.toNat) :
    evaluateExpression (setting.withDepth maxDepth) dice expression =
        evaluateExpression setting dice expression ∧
      levelsTaken (setting.withDepth maxDepth) dice expression =
        levelsTaken setting dice expression := by
  have hbare : evaluateBare (setting.withDepth maxDepth) expression.withoutBlanks { dice } =
      evaluateBare setting expression.withoutBlanks { dice } :=
    evaluateBare_withDepth hgranted (by rwa [Nat.zero_add])
  constructor
  · rw [evaluateExpression_ample, evaluateExpression_ample, hbare]
  · rw [levelsTaken, levelsTaken, ending, ending, hbare]

/-- What is granted all its levels under one limit takes no more under a greater one. -/
theorem evaluateExpression_of_granted {maxDepth : Int}
    (hgranted : Granted (setting.withDepth maxDepth) dice expression)
    (hle : maxDepth ≤ setting.limits.maxDepth) :
    evaluateExpression setting dice expression =
        evaluateExpression (setting.withDepth maxDepth) dice expression ∧
      levelsTaken setting dice expression ≤ maxDepth.toNat := by
  have hreach := levelsTaken_le (setting.withDepth maxDepth) dice expression
  have hsame := evaluateExpression_withDepth hgranted
    (hreach.trans (Int.toNat_le_toNat hle))
  exact ⟨hsame.1, hsame.2.le.trans hreach⟩

end Reckoner

import Reckoner.Proofs.Kept

/-!
# How runs grow

Wherever a run ends, it has only added entries, and it is back at its depth. How deep it goes is
told apart from how deep the runs before it went: the record of the greatest depth only enters a
run by being compared with the depths that the run reaches itself (`Grows.reach`). Flag and
problems go together, but where the stack runs out the flag may be up without a problem
(`EndsAccounted`).
-/

namespace Reckoner

open Eval

/-! ## Ledgers that go on -/

/-- A later ledger has the entries of an earlier one before its own, and its flag stays up. -/
structure Ledger.Continues (earlier later : Ledger) : Prop where
  events : earlier.events <+: later.events
  shown : earlier.shown ≤ later.shown
  failed : earlier.failed = true → later.failed = true

namespace Ledger.Continues

variable {l l' l'' : Ledger}

theorem refl (l : Ledger) : l.Continues l := ⟨List.prefix_rfl, le_refl _, id⟩

theorem trans (h1 : l.Continues l') (h2 : l'.Continues l'') : l.Continues l'' :=
  ⟨h1.events.trans h2.events, h1.shown.trans h2.shown, h2.failed ∘ h1.failed⟩

theorem add (l : Ledger) (e : Event) : l.Continues (l.add e) :=
  ⟨List.prefix_append _ _, le_refl _, id⟩

theorem raise (l : Ledger) : l.Continues l.raise := ⟨List.prefix_rfl, le_refl _, fun _ => rfl⟩

theorem problems (h : l.Continues l') : l.problems <+: l'.problems := h.events.filterMap _

theorem steps (h : l.Continues l') : l.steps <+: l'.steps := h.events.filterMap _

/-- What the roll lines say so far starts what they say later. -/
theorem rollText (h : l.Continues l') : l.rollText <+: l'.rollText := by
  have hrolls : l.rolls <+: l'.rolls := h.events.filterMap _
  obtain ⟨more, hmore⟩ := hrolls
  rw [Ledger.rollText, Ledger.rollText, ← hmore, List.map_append, List.dropWhile_append]
  split_ifs with hblank
  · rw [List.isEmpty_iff.mp hblank]
    exact List.nil_prefix
  · exact join_append_isPrefix _ _ _

end Ledger.Continues

/-- Where there is a problem the flag is up. It may be up without one. -/
def Ledger.Marked (l : Ledger) : Prop := l.problems ≠ [] → l.failed = true

/-! ## Runs that keep to their room -/

variable {σ α β : Type} {stack : Stack}

/-- The same state with another record of the greatest depth. -/
def Progress.withRecord (s : Progress σ stack) (deepest : Nat) : Progress σ stack :=
  { s with deepest }

namespace Eval

/-- The same end of a run with another record of the greatest depth. -/
def endWith (deepest : Nat) : EStateM.Result (Fault stack) (Progress σ stack) α →
    EStateM.Result (Fault stack) (Progress σ stack) α
  | .ok a t => .ok a (t.withRecord deepest)
  | .error fault t => .error fault (t.withRecord deepest)

/-- A run accounts for its end if it made entries, and where the stack ran out it may have raised
the flag behind them. -/
def EndsAccounted (setting : Setting σ) (s : Progress σ stack)
    (r : EStateM.Result (Fault stack) (Progress σ stack) α) : Prop :=
  ∃ entries u, Recounts setting s u entries ∧
    (lastState r = u ∨ IsExhausted r ∧ lastState r = u.raised)

/-- However a step ends, it has only added entries and is back at its depth. It goes `room`
levels deeper at most: it compares the record of the greatest depth with a depth no greater
than that, and does not look at the record otherwise. -/
structure Grows (setting : Setting σ) (room : Nat) (m : Eval σ α stack) : Prop where
  accounted : ∀ s : Progress σ stack, EndsAccounted setting s (m s)
  reach : ∀ s : Progress σ stack, ∃ reach ≤ s.depth + room, ∀ record,
    m (s.withRecord record) = endWith (max record reach) (m s)

/-! ### What a run leaves behind -/

namespace EndsAccounted

variable {setting : Setting σ} {s : Progress σ stack}
  {r : EStateM.Result (Fault stack) (Progress σ stack) α} (h : EndsAccounted setting s r)
include h

theorem ledger : s.ledger.Continues (lastState r).ledger := by
  obtain ⟨entries, u, hu, hlast⟩ := h
  have hcontinues : s.ledger.Continues u.ledger := by
    refine ⟨?_, ?_, fun hs => ?_⟩
    · rw [hu.events]
      exact List.prefix_append _ _
    · rw [hu.shown]
      exact Nat.le_add_right _ _
    · have hflag : u.ledger.failed = (s.ledger.failed || troubled entries) := hu.failed
      rw [hflag, hs, Bool.true_or]
  rcases hlast with hlast | ⟨-, hlast⟩ <;> rw [hlast]
  · exact hcontinues
  · exact hcontinues.trans (.raise _)

theorem depth : (lastState r).depth = s.depth := by
  obtain ⟨entries, u, hu, hlast⟩ := h
  rcases hlast with hlast | ⟨-, hlast⟩ <;> rw [hlast] <;> exact hu.depth

/-- The flag tells whether there is a problem, unless the stack ran out. -/
theorem flagged (hs : s.ledger.Flagged) : (lastState r).ledger.Flagged ∨ IsExhausted r := by
  obtain ⟨entries, u, hu, hlast⟩ := h
  rcases hlast with hlast | ⟨hexhausted, -⟩
  · left
    rw [hlast]
    exact hu.flagged hs
  · exact .inr hexhausted

/-- Where there is a problem the flag is up in any case. -/
theorem marked (hs : s.ledger.Marked) : (lastState r).ledger.Marked := by
  obtain ⟨entries, u, hu, hlast⟩ := h
  rcases hlast with hlast | ⟨-, hlast⟩ <;> rw [hlast]
  · intro hproblems
    have hflag : u.ledger.failed = (s.ledger.failed || troubled entries) := hu.failed
    cases hentries : troubled entries with
    | true => rw [hflag, hentries, Bool.or_true]
    | false =>
      rw [hflag, hentries, Bool.or_false]
      refine hs ?_
      rwa [Ledger.problems, hu.events, List.filterMap_append,
        (troubled_eq_false_iff entries).mp hentries, List.append_nil] at hproblems
  · exact fun _ => rfl

end EndsAccounted

namespace Grows

variable {setting : Setting σ} {room : Nat}

/-- A step that makes entries and does not look at the record at all. -/
theorem of_blind {m : Eval σ α stack}
    (hentries : ∀ s, ∃ entries, Recounts setting s (lastState (m s)) entries)
    (hblind : ∀ (s : Progress σ stack) record, m (s.withRecord record) = endWith record (m s)) :
    Grows setting room m where
  accounted s := by
    obtain ⟨entries, hs⟩ := hentries s
    exact ⟨entries, _, hs, .inl rfl⟩
  reach s := ⟨0, Nat.zero_le _, fun record => by rw [Nat.max_zero, hblind]⟩

theorem answer (a : α) : Grows setting room (pure a : Eval σ α stack) :=
  .of_blind (fun s => ⟨[], .refl s⟩) fun _ _ => rfl

theorem note (step : Step) : Grows setting room (note step : Eval σ Unit stack) :=
  .of_blind (fun s => ⟨_, .step s step⟩) fun _ _ => rfl

theorem fault (fault : Fault stack) : Grows setting room (throw fault : Eval σ α stack) :=
  .of_blind (fun s => ⟨[], .refl s⟩) fun _ _ => rfl

theorem enter (p : Problem) : Grows setting room (enter p : Eval σ Unit stack) where
  accounted s := by
    rcases enter_cases p s with ⟨-, h⟩ | ⟨-, -, bounded, h⟩ | ⟨-, bounded, h⟩ <;> rw [h]
    · exact ⟨_, _, .problem s p, .inl rfl⟩
    · exact ⟨[], s, .refl s, .inr ⟨⟨_, _, rfl, rfl⟩, rfl⟩⟩
    · exact ⟨[], s, .refl s, .inl rfl⟩
  reach s := by
    refine ⟨0, Nat.zero_le _, fun record => ?_⟩
    rw [Nat.max_zero]
    have hroom : ∀ use, stack.hasRoom use (s.withRecord record).depth = stack.hasRoom use s.depth :=
      fun _ => rfl
    rcases enter_alike p hroom with ⟨h, h'⟩ | ⟨_, ⟨h, h'⟩ | ⟨h, h'⟩⟩ <;> rw [h, h'] <;> rfl

theorem sequence {m : Eval σ α stack} {k : α → Eval σ β stack} (hm : Grows setting room m)
    (hk : ∀ a, Grows setting room (k a)) : Grows setting room (m >>= k) where
  accounted s := by
    obtain ⟨xs, u, hu, hlast⟩ := hm.accounted s
    rw [bind_apply]
    cases hrun : m s with
    | error fault t =>
      rw [hrun] at hlast
      refine ⟨xs, u, hu, hlast.imp_right fun ⟨hexhausted, hraised⟩ => ⟨?_, hraised⟩⟩
      obtain ⟨_, _, heq, hcaught⟩ := hexhausted
      cases heq
      exact ⟨_, _, rfl, hcaught⟩
    | ok a t =>
      rw [hrun] at hlast
      obtain rfl : t = u := hlast.resolve_right fun ⟨⟨_, _, heq, _⟩, _⟩ => by cases heq
      obtain ⟨ys, v, hv, hlast'⟩ := (hk a).accounted t
      exact ⟨xs ++ ys, v, hu.trans hv, hlast'⟩
  reach s := by
    obtain ⟨first, hfirst, hm'⟩ := hm.reach s
    have hstart := (hm.accounted s).depth
    cases hrun : m s with
    | error fault t =>
      refine ⟨first, hfirst, fun record => ?_⟩
      rw [bind_apply, bind_apply, hm', hrun]
      rfl
    | ok a t =>
      rw [hrun] at hstart
      -- the second step has the same room, since the first one is back at its depth
      have hback : t.depth = s.depth := hstart
      obtain ⟨second, hsecond, hk'⟩ := (hk a).reach t
      rw [hback] at hsecond
      refine ⟨max first second, max_le hfirst hsecond, fun record => ?_⟩
      rw [bind_apply, bind_apply, hm', hrun, ← max_assoc]
      exact hk' (max record first)

/-- A run gets no deeper than the room it has, unless it was deeper before. -/
theorem deepest_le {m : Eval σ α stack} (hm : Grows setting room m) (s : Progress σ stack) :
    (lastState (m s)).deepest ≤ max s.deepest (s.depth + room) := by
  obtain ⟨reach, hreach, hrun⟩ := hm.reach s
  have hend : m s = endWith (max s.deepest reach) (m s) := hrun s.deepest
  have hdeepest : (lastState (m s)).deepest = max s.deepest reach := by
    rw [hend]
    cases m s <;> rfl
  rw [hdeepest]
  exact max_le_max_left _ hreach

/-- One level deeper a step needs one level more. -/
theorem nested {m : Eval σ α stack} (hm : Grows setting room m) :
    Grows setting (room + 1) (nested m) where
  accounted s := by
    by_cases hroom : stack.hasRoom .evaluation (s.depth + 1) = true
    · obtain ⟨xs, u, hu, hlast⟩ := hm.accounted (deeper s)
      refine ⟨xs, atDepth s.depth u, hu.nested, ?_⟩
      rw [nested_of_room hroom]
      cases hrun : m (deeper s) with
      | ok a t =>
        rw [hrun] at hlast
        obtain rfl : t = u := hlast.resolve_right fun ⟨⟨_, _, heq, _⟩, _⟩ => by cases heq
        exact .inl rfl
      | error fault t =>
        rw [hrun] at hlast
        refine hlast.imp (congrArg (atDepth s.depth)) fun ⟨hexhausted, hraised⟩ =>
          ⟨?_, congrArg (atDepth s.depth) hraised⟩
        obtain ⟨_, _, heq, hcaught⟩ := hexhausted
        cases heq
        exact ⟨_, _, rfl, hcaught⟩
    · rw [nested_of_not_room hroom]
      exact ⟨[], s, .refl s, .inl rfl⟩
  reach s := by
    by_cases hroom : stack.hasRoom .evaluation (s.depth + 1) = true
    · obtain ⟨inner, hinner, hm'⟩ := hm.reach (deeper s)
      have hdepth : (deeper s).depth = s.depth + 1 := rfl
      rw [hdepth] at hinner
      refine ⟨max (s.depth + 1) inner, by omega, fun record => ?_⟩
      have hdeeper : deeper (s.withRecord record) =
          (deeper s).withRecord (max record (s.depth + 1)) := rfl
      have hroom' : stack.hasRoom .evaluation ((s.withRecord record).depth + 1) = true := hroom
      rw [nested_of_room hroom, nested_of_room hroom', hdeeper, hm', max_assoc]
      cases m (deeper s) <;> rfl
    · refine ⟨0, Nat.zero_le _, fun record => ?_⟩
      have hroom' : ¬stack.hasRoom .evaluation ((s.withRecord record).depth + 1) = true := hroom
      rw [nested_of_not_room hroom, nested_of_not_room hroom', Nat.max_zero]
      rfl

variable (setting room stack) in
theorem respects :
    Respects (fun _ => True) fun _ (m _ : Eval σ _ stack) => Grows setting room m where
  answer := answer
  sequence := sequence
  flag := .of_blind (fun s => ⟨[], .refl s⟩) fun _ _ => rfl
  problem p _ := enter p
  step step _ := note step

theorem guarded {m : Eval σ Float stack} (hm : Grows setting room m) :
    Grows setting room (unlessFailed m) :=
  @Respects.unlessFailed σ σ stack stack _ _ (respects stack setting room) m m hm

theorem rollDice (count : Int) (faces : Nat) :
    Grows setting room (rollDice setting count faces : Eval σ Float stack) := by
  refine .of_blind (fun s => ?_) fun s record => ?_
  · rw [lastState_rollDice]
    exact ⟨_, .roll s count faces⟩
  · have htotal : rollTotal setting count faces (s.withRecord record) =
        rollTotal setting count faces s := rfl
    rw [rollDice_apply, rollDice_apply, htotal]
    cases intToDouble? (rollTotal setting count faces s) <;> rfl

theorem roll (count sides : Float) :
    Grows setting room (roll setting count sides : Eval σ Float stack) := by
  exact @Respects.roll_of_rollDice σ σ stack stack _ _ (respects stack setting room) setting setting
    count sides rfl (fun _ _ => trivial) (fun _ _ => trivial) rollDice

variable (setting)

/-- **Nested evaluations keep to their levels.** -/
theorem descend (levels : Nat) (entry : Entry) (t : Text) :
    Grows setting levels (descend setting levels entry t : Eval σ Float stack) := by
  induction levels generalizing entry t with
  | zero => exact guarded ((enter _).sequence fun _ => answer _)
  | succ levels ih =>
    have hstep := @Respects.evalStep σ σ stack stack _ _ (respects stack setting levels) _
      (Eval.descend setting levels) setting setting t (fun folded _ => .all folded)
      (fun entry u _ => ih entry u) (fun _ _ _ => roll) entry
    exact guarded (nested hstep)

theorem evaluate (t : Text) :
    Grows setting setting.limits.maxDepth.toNat (evaluate setting t : Eval σ Float stack) :=
  descend setting _ _ t

/-- The place of a group may lie outside the text, and then there is a fault. -/
theorem simplify (t : Text) (start stop : Int) (inner : Text) :
    Grows setting setting.limits.maxDepth.toNat
      (simplify setting t start stop inner : Eval σ Text stack) := by
  have hneighbour : ∀ neighbour : Except Fault (Option Char),
      Grows setting setting.limits.maxDepth.toNat
        (Eval.ofExcept neighbour : Eval σ (Option Char) stack) := by
    intro neighbour
    cases neighbour with
    | error fault => exact Grows.fault fault.onStack
    | ok c => exact answer c
  have hinner : Grows setting _ (topmost setting .whole inner : Eval σ Float stack) :=
    descend setting setting.limits.maxDepth.toNat .whole inner
  exact @Respects.foldGroup σ σ stack stack _ _ (respects stack setting _) _ (topmost setting)
    (.atPositions t start stop) inner (.all _) (.all inner) (hneighbour _) (hneighbour _) hinner

end Grows

end Eval

end Reckoner

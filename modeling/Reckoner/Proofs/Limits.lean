import Reckoner.Proofs.ShortCircuit
import Mathlib.Data.List.Forall2

/-!
# Runs under other limits

Limits decide when a run gives up and how much of a roll its line shows, and nothing else.
Two runs with the same dice, of the same text and under limits that differ, go on step by step
in the same way unless the first one meets a problem that the second is spared
(`follows_descend`). Which problems these are is a parameter, since it depends on the limits.
-/

namespace Reckoner

open Eval

/-! ## Entries that match -/

/-- The same entry, but for how many of its dice a roll line shows. -/
inductive Event.Matches : Event → Event → Prop where
  | same (e : Event) : Matches e e
  | roll {count faces total : Int} {shown shown' : List Nat} (cut cut' : Bool)
      (h : shown <+: shown' ∨ shown' <+: shown) :
      Matches (.roll (.rolled count faces shown cut total))
        (.roll (.rolled count faces shown' cut' total))

/-- Entries that match one by one. -/
def Matching (xs ys : List Event) : Prop := List.Forall₂ Event.Matches xs ys

namespace Matching

variable {xs ys xs' ys' : List Event}

theorem nil : Matching [] [] := List.Forall₂.nil

theorem single {e e' : Event} (h : e.Matches e') : Matching [e] [e'] := List.Forall₂.cons h .nil

theorem refl (xs : List Event) : Matching xs xs := by
  induction xs with
  | nil => exact nil
  | cons e xs ih => exact List.Forall₂.cons (.same e) ih

theorem append (h : Matching xs ys) (h' : Matching xs' ys') : Matching (xs ++ xs') (ys ++ ys') := by
  induction h with
  | nil => exact h'
  | cons he _ ih => exact .cons he ih

/-- What reads nothing from roll lines reads the same from both. -/
theorem filterMap_eq {β : Type} {read : Event → Option β} (h : Matching xs ys)
    (hroll : ∀ line, read (.roll line) = none) : ys.filterMap read = xs.filterMap read := by
  induction h with
  | nil => rfl
  | cons he _ ih =>
    rw [List.filterMap_cons, List.filterMap_cons, ih]
    cases he with
    | roll => rw [hroll, hroll]
    | same => rfl

theorem problems (h : Matching xs ys) :
    ys.filterMap Event.problem? = xs.filterMap Event.problem? :=
  h.filterMap_eq fun _ => rfl

theorem problem_mem (h : Matching xs ys) {p : Problem} (hp : .problem p ∈ ys) :
    .problem p ∈ xs := by
  have hread : p ∈ xs.filterMap Event.problem? := by
    rw [← h.problems]
    exact List.mem_filterMap.mpr ⟨_, hp, rfl⟩
  exact (@Ledger.mem_problems { events := xs } p).mp hread

theorem steps (h : Matching xs ys) : ys.filterMap Event.step? = xs.filterMap Event.step? :=
  h.filterMap_eq fun _ => rfl

end Matching

/-! ## Runs that go on alike -/

variable {σ α β : Type} {stack : Stack}

/-- Two states with the same dice that have both failed or both not, and where the stack may run
out, at the same depth. In an `exact` comparison the roll lines so far show the same number of
dice, too. -/
structure Alike (exact : Prop) (s s' : Progress σ stack) : Prop where
  dice : s'.dice = s.dice
  failed : s'.failed = s.failed
  shown : exact → s'.ledger.shown = s.ledger.shown
  depth : stack ≠ .ample → s'.depth = s.depth

namespace Alike

variable {exact : Prop}

/-- On an ample stack depths do not matter. -/
theorem of_ample {s s' : Progress σ} (dice : s'.dice = s.dice) (failed : s'.failed = s.failed)
    (shown : exact → s'.ledger.shown = s.ledger.shown) : Alike exact s s' :=
  ⟨dice, failed, shown, fun h => absurd rfl h⟩

theorem start (dice : σ) : Alike exact ({ dice } : Progress σ stack) { dice } :=
  ⟨rfl, rfl, fun _ => rfl, fun _ => rfl⟩

theorem hasRoom {s s' : Progress σ stack} (h : Alike exact s s') (use : StackUse) (levels : Nat) :
    stack.hasRoom use (s'.depth + levels) = stack.hasRoom use (s.depth + levels) := by
  by_cases hample : stack = .ample
  · subst hample
    rfl
  · rw [h.depth hample]

end Alike

/-- Between `s` and `t` the same has been entered as between `s'` and `t'`, up to what roll
lines show unless the comparison is `exact`. -/
structure Tracks (exact : Prop) (s t s' t' : Progress σ stack) : Prop where
  alike : Alike exact t t'
  entries : ∃ xs xs', t.ledger.events = s.ledger.events ++ xs ∧
    t'.ledger.events = s'.ledger.events ++ xs' ∧ Matching xs xs' ∧ (exact → xs' = xs)

namespace Tracks

variable {exact : Prop} {s t u s' t' u' : Progress σ stack}

theorem refl (h : Alike exact s s') : Tracks exact s s s' s' :=
  ⟨h, [], [], (List.append_nil _).symm, (List.append_nil _).symm, .nil, fun _ => rfl⟩

theorem trans (h1 : Tracks exact s t s' t') (h2 : Tracks exact t u t' u') :
    Tracks exact s u s' u' := by
  obtain ⟨xs, xs', hx, hx', hmatch, hexact⟩ := h1.entries
  obtain ⟨ys, ys', hy, hy', hmatch', hexact'⟩ := h2.entries
  refine ⟨h2.alike, xs ++ ys, xs' ++ ys', ?_, ?_, hmatch.append hmatch', fun h => ?_⟩
  · rw [hy, hx, List.append_assoc]
  · rw [hy', hx', List.append_assoc]
  · rw [hexact h, hexact' h]

/-- The same entry on both sides, if it shows no dice. -/
theorem add (h : Alike exact s s') (e : Event) :
    Tracks exact s (s.add e) s' (s'.add e) where
  alike :=
    { dice := h.dice
      failed := by
        show (e.problem?.isSome || s'.failed) = (e.problem?.isSome || s.failed)
        rw [h.failed]
      shown := h.shown
      depth := h.depth }
  entries := ⟨[e], [e], rfl, rfl, .refl _, fun _ => rfl⟩

/-- The flag on both sides. -/
theorem raised (h : Alike exact s s') : Tracks exact s s.raised s' s'.raised :=
  ⟨⟨h.dice, rfl, h.shown, h.depth⟩, [], [], (List.append_nil _).symm, (List.append_nil _).symm,
    .nil, fun _ => rfl⟩

/-- One level deeper and back the entries are the same. -/
theorem nested (h : Tracks exact (deeper s) t (deeper s') t')
    (hdepth : stack ≠ .ample → s'.depth = s.depth) :
    Tracks exact s (atDepth s.depth t) s' (atDepth s'.depth t') :=
  ⟨⟨h.alike.dice, h.alike.failed, h.alike.shown, hdepth⟩, h.entries⟩

end Tracks

/-- Two runs that end alike: with the same answer or the same fault, and in between with the
same entries. -/
inductive EndAlike (exact : Prop) (s s' : Progress σ stack) :
    EStateM.Result (Fault stack) (Progress σ stack) α →
      EStateM.Result (Fault stack) (Progress σ stack) α → Prop where
  | ok {a : α} {t t' : Progress σ stack} (h : Tracks exact s t s' t') :
    EndAlike exact s s' (.ok a t) (.ok a t')
  | error {fault : Fault stack} {t t' : Progress σ stack} (h : Tracks exact s t s' t') :
    EndAlike exact s s' (.error fault t) (.error fault t')

theorem Tracks.trans_end {exact : Prop} {s t s' t' : Progress σ stack}
    {r r' : EStateM.Result (Fault stack) (Progress σ stack) α} (h : Tracks exact s t s' t')
    (hr : EndAlike exact t t' r r') : EndAlike exact s s' r r' := by
  cases hr with
  | ok hr => exact .ok (h.trans hr)
  | error hr => exact .error (h.trans hr)

/-- Runs that track each other exactly from the same state have the same ledger. -/
theorem Tracks.ledger_eq {s t t' : Progress σ stack} (h : Tracks True s t s t') :
    t'.ledger = t.ledger := by
  obtain ⟨xs, xs', hxs, hxs', -, hexact⟩ := h.entries
  have hevents : t'.ledger.events = t.ledger.events := by rw [hxs, hxs', hexact trivial]
  have hshown : t'.ledger.shown = t.ledger.shown := h.alike.shown trivial
  exact Ledger.ext hevents hshown h.alike.failed

/-- Runs that end alike leave the same dice. -/
theorem EndAlike.dice_eq {exact : Prop} {s s' : Progress σ stack}
    {r r' : EStateM.Result (Fault stack) (Progress σ stack) α} (h : EndAlike exact s s' r r') :
    (lastState r').dice = (lastState r).dice := by
  cases h with
  | ok htracks => exact htracks.alike.dice
  | error htracks => exact htracks.alike.dice

theorem lastState_rollDice (setting : Setting σ) (n : Int) (faces : Nat) (s : Progress σ stack) :
    lastState (rollDice setting n faces s) = afterRoll setting n faces s := by
  rw [rollDice_apply]
  cases intToDouble? (rollTotal setting n faces s) <;> rfl

/-- A run whose stack is exhausted. -/
def IsExhausted (r : EStateM.Result (Fault stack) (Progress σ stack) α) : Prop :=
  ∃ fault t, r = .error fault t ∧ fault.escaping = none

theorem not_isExhausted_ample (r : EStateM.Result Fault (Progress σ) α) : ¬IsExhausted r := by
  rintro ⟨fault, t, -, hfault⟩
  rw [escaping_ample] at hfault
  cases hfault

/-- Between two states a problem came up that another run is spared. -/
structure Lost (lost : Problem → Prop) (s t : Progress σ stack) : Prop where
  failed : t.failed = true
  entered : ∃ xs p, t.ledger.events = s.ledger.events ++ xs ∧ .problem p ∈ xs ∧ lost p

/-- A run gets lost where it meets a problem that another run is spared. It may exhaust its stack
in such a place. -/
def GetsLost (lost : Problem → Prop) (s : Progress σ stack)
    (r : EStateM.Result (Fault stack) (Progress σ stack) α) : Prop :=
  Lost lost s (lastState r) ∨ (∃ p, lost p) ∧ IsExhausted r

theorem lost_add {lost : Problem → Prop} {p : Problem} (h : lost p) (s : Progress σ stack) :
    Lost lost s (s.add (.problem p)) :=
  ⟨Progress.failed_add_problem s p, _, p, rfl, List.mem_singleton_self _, h⟩

/-- What is entered afterwards does not take the loss back. -/
theorem Lost.before {lost : Problem → Prop} {s t u : Progress σ stack} {ys : List Event}
    (h : Lost lost s t) (hy : u.ledger.events = t.ledger.events ++ ys)
    (hu : t.failed = true → u.failed = true) : Lost lost s u := by
  obtain ⟨xs, p, hx, hp, hlost⟩ := h.entered
  refine ⟨hu h.failed, xs ++ ys, p, ?_, List.mem_append_left _ hp, hlost⟩
  rw [hy, hx, List.append_assoc]

theorem Lost.after {lost : Problem → Prop} {s t u : Progress σ stack} {xs : List Event}
    (hx : t.ledger.events = s.ledger.events ++ xs) (h : Lost lost t u) : Lost lost s u := by
  obtain ⟨ys, p, hy, hp, hlost⟩ := h.entered
  refine ⟨h.failed, xs ++ ys, p, ?_, List.mem_append_right _ hp, hlost⟩
  rw [hy, hx, List.append_assoc]

theorem getsLost_enter {lost : Problem → Prop} {p : Problem} (h : lost p) (s : Progress σ stack) :
    GetsLost lost s (enter p s) := by
  rcases enter_cases p s with ⟨-, hrun⟩ | ⟨-, -, _, hrun⟩ | ⟨-, _, hrun⟩ <;> rw [hrun]
  · exact .inl (lost_add h s)
  · exact .inr ⟨⟨p, h⟩, _, _, rfl, rfl⟩
  · exact .inr ⟨⟨p, h⟩, _, _, rfl, rfl⟩

namespace GetsLost

variable {lost : Problem → Prop} {s : Progress σ stack}

theorem not_of_clear {t : Progress σ stack} {a : α} (ht : t.failed = false) :
    ¬GetsLost lost s (.ok a t) := by
  rintro (hlost | ⟨-, fault, u, h, -⟩)
  · exact Bool.false_ne_true (ht.symm.trans hlost.failed)
  · cases h

/-- A run that got lost can go on as it likes. -/
theorem bind {m : Eval σ α stack} {k : α → Eval σ β stack} (h : GetsLost lost s (m s))
    (hk : ∀ a t, ∃ ys, (lastState (k a t)).ledger.events = t.ledger.events ++ ys ∧
      (t.failed = true → (lastState (k a t)).failed = true)) :
    GetsLost lost s ((m >>= k) s) := by
  rw [bind_apply]
  cases hrun : m s with
  | error fault t =>
    rw [hrun] at h
    refine h.imp id fun ⟨hp, fault', t', h', hfault⟩ => ⟨hp, ?_⟩
    cases h'
    exact ⟨fault, t, rfl, hfault⟩
  | ok a t =>
    rw [hrun] at h
    rcases h with hlost | ⟨-, fault, u, h, -⟩
    · obtain ⟨ys, hys, hfailed⟩ := hk a t
      exact .inl (hlost.before hys hfailed)
    · cases h

end GetsLost

/-- Whatever a run does, it makes entries, and does not take the flag down. -/
theorem Accounts.exists_entries {setting : Setting σ} {m : Eval σ α stack}
    (hm : Accounts setting m) (s : Progress σ stack) :
    ∃ xs, (lastState (m s)).ledger.events = s.ledger.events ++ xs ∧
      (s.failed = true → (lastState (m s)).failed = true) := by
  have hkeeps : ∀ {u xs}, Recounts setting s u xs → s.failed = true → u.failed = true := by
    intro u xs h hs
    rw [h.failed, hs, Bool.true_or]
  cases hrun : m s with
  | ok a t =>
    obtain ⟨xs, hx, -⟩ := hm.ok hrun
    exact ⟨xs, hx.events, hkeeps hx⟩
  | error fault t =>
    rcases hm.fault hrun with ⟨-, xs, hx, -⟩ | ⟨-, xs, u, hx, -, rfl | rfl⟩
    · exact ⟨xs, hx.events, hkeeps hx⟩
    · exact ⟨xs, hx.events, hkeeps hx⟩
    · exact ⟨xs, hx.events, fun _ => rfl⟩

/-- From states that are alike the second evaluation goes on as the first one does, unless
that one gets lost. -/
structure Follows (setting : Setting σ) (lost : Problem → Prop) (exact : Prop)
    (m m' : Eval σ α stack) : Prop where
  accounts : Accounts setting m
  ends : ∀ {s s'}, Alike exact s s' → GetsLost lost s (m s) ∨ EndAlike exact s s' (m s) (m' s')

/-- The second setting differs from the first in its limits only, and rolls all dice that
the first one rolls. -/
structure Varied (setting setting' : Setting σ) (lost : Problem → Prop) (exact : Prop) :
    Prop where
  source : setting'.source = setting.source
  dice : setting'.limits.maxDice = setting.limits.maxDice ∨
    setting.limits.maxDice ≤ setting'.limits.maxDice ∧ ∀ count most, lost (.tooManyDice count most)
  budgets : exact → setting'.limits.rollLineLength = setting.limits.rollLineLength ∧
    setting'.limits.shownDice = setting.limits.shownDice

namespace Follows

variable {setting setting' : Setting σ} {lost : Problem → Prop} {exact : Prop}

/-- A run without a problem is followed to its end. -/
theorem run {m m' : Eval σ α stack} (hm : Follows setting lost exact m m')
    {s s' t : Progress σ stack} {a : α} (h : Alike exact s s') (hrun : m s = .ok a t)
    (ht : t.failed = false) : ∃ t', m' s' = .ok a t' ∧ Tracks exact s t s' t' := by
  have hends := hm.ends h
  rw [hrun] at hends
  have hends := hends.resolve_left (GetsLost.not_of_clear ht)
  generalize m' s' = r' at hends
  cases hends with
  | ok htracks => exact ⟨_, rfl, htracks⟩

theorem answer (a : α) : Follows setting lost exact (pure a : Eval σ α stack) (pure a) where
  accounts := .answer a
  ends h := .inr (.ok (.refl h))

theorem enter (p : Problem) :
    Follows setting lost exact (enter p : Eval σ Unit stack) (enter p) where
  accounts := .enter p
  ends {s s'} h := by
    right
    rcases enter_alike p fun use => h.hasRoom use 0 with
      ⟨hrun, hrun'⟩ | ⟨_, ⟨hrun, hrun'⟩ | ⟨hrun, hrun'⟩⟩ <;> rw [hrun, hrun']
    · exact .ok (.add h _)
    · exact .error (.raised h)
    · exact .error (.refl h)

theorem sequence {m m' : Eval σ α stack} {k k' : α → Eval σ β stack}
    (hm : Follows setting lost exact m m') (hk : ∀ a, Follows setting lost exact (k a) (k' a)) :
    Follows setting lost exact (m >>= k) (m' >>= k') where
  accounts := .sequence hm.accounts fun a => (hk a).accounts
  ends {s s'} h := by
    rcases hm.ends h with hlost | hends
    · exact .inl (hlost.bind fun a => (hk a).accounts.exists_entries)
    · rw [bind_apply, bind_apply]
      generalize m s = r, m' s' = r' at hends
      cases hends with
      | error htracks => exact .inr (.error htracks)
      | ok htracks =>
        obtain ⟨xs, -, hx, -⟩ := htracks.entries
        refine ((hk _).ends htracks.alike).imp (fun hlost => ?_) htracks.trans_end
        exact hlost.imp (.after hx) id

theorem nested {m m' : Eval σ α stack} (hm : Follows setting lost exact m m') :
    Follows setting lost exact (nested m) (nested m') where
  accounts := hm.accounts.nested
  ends {s s'} h := by
    have hdeeper : Alike exact (deeper s) (deeper s') :=
      ⟨h.dice, h.failed, h.shown, fun hample => congrArg (· + 1) (h.depth hample)⟩
    by_cases hroom : stack.hasRoom .evaluation (s.depth + 1) = true
    · rw [nested_of_room hroom, nested_of_room ((h.hasRoom .evaluation 1).trans hroom)]
      rcases hm.ends hdeeper with hlost | hends
      · left
        cases hrun : m (deeper s) with
        | ok a t =>
          rw [hrun] at hlost
          refine hlost.imp (fun h => ⟨h.failed, h.entered⟩) fun ⟨hp, fault, u, h, _⟩ => ?_
          cases h
        | error fault t =>
          rw [hrun] at hlost
          refine hlost.imp (fun h => ⟨h.failed, h.entered⟩) fun ⟨hp, fault', u, h, hfault⟩ => ?_
          cases h
          exact ⟨hp, fault, _, rfl, hfault⟩
      · right
        generalize m (deeper s) = r, m' (deeper s') = r' at hends
        cases hends with
        | ok ht => exact .ok (ht.nested h.depth)
        | error ht => exact .error (ht.nested h.depth)
    · have hroom' : ¬stack.hasRoom .evaluation (s'.depth + 1) = true := by
        rwa [h.hasRoom .evaluation 1]
      rw [nested_of_not_room hroom, nested_of_not_room hroom']
      exact .inr (.error (.refl h))

/-- On an ample stack what is alike does not depend on the depth. -/
theorem nested_left {m m' : Eval σ α} (hm : Follows setting lost exact m m') :
    Follows setting lost exact (Eval.nested m) m' where
  accounts := hm.accounts.nested
  ends {s s'} h := by
    have hdeeper : Alike exact (deeper s) s' := .of_ample h.dice h.failed h.shown
    have hback : ∀ {t t'}, Tracks exact (deeper s) t s' t' →
        Tracks exact s (atDepth s.depth t) s' t' := fun ht =>
      ⟨.of_ample ht.alike.dice ht.alike.failed ht.alike.shown, ht.entries⟩
    rw [nested_apply]
    rcases hm.ends hdeeper with hlost | hends
    · have hlost := hlost.resolve_right fun h => not_isExhausted_ample _ h.2
      left
      cases hrun : m (deeper s) with
      | ok a t => rw [hrun] at hlost; exact .inl ⟨hlost.failed, hlost.entered⟩
      | error fault t => rw [hrun] at hlost; exact .inl ⟨hlost.failed, hlost.entered⟩
    · right
      generalize m (deeper s) = r, m' s' = r' at hends
      cases hends with
      | ok ht => exact .ok (hback ht)
      | error ht => exact .error (hback ht)

theorem nested_right {m m' : Eval σ α} (hm : Follows setting lost exact m m') :
    Follows setting lost exact m (Eval.nested m') where
  accounts := hm.accounts
  ends {s s'} h := by
    have hdeeper : Alike exact s (deeper s') := .of_ample h.dice h.failed h.shown
    have hback : ∀ {t t'}, Tracks exact s t (deeper s') t' →
        Tracks exact s t s' (atDepth s'.depth t') := fun ht =>
      ⟨.of_ample ht.alike.dice ht.alike.failed ht.alike.shown, ht.entries⟩
    rw [nested_apply]
    refine (hm.ends hdeeper).imp id fun hends => ?_
    generalize m s = r, m' (deeper s') = r' at hends
    cases hends with
    | ok ht => exact .ok (hback ht)
    | error ht => exact .error (hback ht)

/-- A run that gives up at once need not be followed. -/
theorem refused {p : Problem} (hp : lost p) (m' : Eval σ Float stack) :
    Follows setting lost exact (unlessFailed (refuse p)) (unlessFailed m') where
  accounts := @Respects.unlessFailed _ _ _ _ _ _ (Accounts.congruence _ setting).toRespects _
    (refuse p) ((Accounts.congruence _ setting).refuse trivial)
  ends {s s'} h := by
    by_cases hs : s.failed = true
    · right
      rw [unlessFailed_of_failed hs, unlessFailed_of_failed (h.failed.trans hs)]
      exact .ok (.refl h)
    · left
      rw [unlessFailed_of_not_failed (by simpa using hs)]
      exact (getsLost_enter hp s).bind fun _ => (.answer _ : Accounts setting _).exists_entries

variable (hv : Varied setting setting' lost exact)
include hv

/-- The totals of the two rolls agree since the dice do; what is shown of them is the start
of the same draws. -/
theorem matches_rollLine {s s' : Progress σ stack} (h : Alike exact s s') (count : Int)
    (faces : Nat) :
    (Event.roll (rollLine setting count faces s)).Matches
        (.roll (rollLine setting' count faces s')) ∧
      (exact → rollLine setting' count faces s' = rollLine setting count faces s) := by
  have htotal : rollTotal setting' count faces s' = rollTotal setting count faces s := by
    rw [rollTotal, rollTotal, hv.source, h.dice]
  unfold rollLine
  rw [htotal, hv.source, h.dice]
  constructor
  · exact .roll _ _ (List.prefix_or_prefix_of_prefix (affordable_isPrefix ..)
      (affordable_isPrefix ..))
  · intro hexact
    obtain ⟨hlength, hdice⟩ := hv.budgets hexact
    rw [h.shown hexact]
    simp only [affordable_congr hlength hdice]

theorem rollDice (count : Int) (faces : Nat) :
    Follows setting lost exact (rollDice setting count faces : Eval σ Float stack)
      (rollDice setting' count faces) where
  accounts := .rollDice count faces
  ends {s s'} h := by
    have htotal : rollTotal setting' count faces s' = rollTotal setting count faces s := by
      rw [rollTotal, rollTotal, hv.source, h.dice]
    obtain ⟨hmatch, hline⟩ := matches_rollLine hv h count faces
    have htracks : Tracks exact s (afterRoll setting count faces s) s'
        (afterRoll setting' count faces s') := by
      refine ⟨⟨?_, ?_, fun hexact => ?_, h.depth⟩, _, _, rfl, rfl, .single hmatch,
        fun hexact => ?_⟩
      · show (setting'.source.drawMany _ _ s'.dice).2 = (setting.source.drawMany _ _ s.dice).2
        rw [hv.source, h.dice]
      · rw [failed_afterRoll, failed_afterRoll, h.failed]
      · show s'.ledger.shown + _ = s.ledger.shown + _
        rw [h.shown hexact, hline hexact]
      · rw [hline hexact]
    rw [rollDice_apply, rollDice_apply, htotal]
    cases intToDouble? (rollTotal setting count faces s) with
    | some x => exact .inr (.ok htracks)
    | none => exact .inr (.error htracks)

/-- A number of dice that one setting allows and the other does not gets the run lost. -/
theorem diceCount_cases (count : Float) :
    diceCount setting'.limits count = diceCount setting.limits count ∨
      ∃ most, diceCount setting.limits count = .error (.tooManyDice count most) ∧
        lost (.tooManyDice count most) := by
  rcases hv.dice with heq | ⟨hle, hlost⟩
  · left
    rw [diceCount, diceCount, heq]
  · unfold diceCount
    split
    · split_ifs with h h'
      · exact .inr ⟨_, rfl, hlost _ _⟩
      · omega
      · exact .inr ⟨_, rfl, hlost _ _⟩
      · exact .inl rfl
    · exact .inr ⟨_, rfl, hlost _ _⟩

omit hv in
variable (setting lost exact stack) in
theorem respects :
    Respects (fun _ => True) fun _ (m m' : Eval σ _ stack) => Follows setting lost exact m m' where
  answer := answer
  sequence := sequence
  flag := by
    refine ⟨(Accounts.congruence _ setting).flag, fun {s s'} h => .inr ?_⟩
    rw [failed_apply, failed_apply, show s'.failed = s.failed from h.failed]
    exact .ok (.refl h)
  problem p _ := enter p
  step step _ := ⟨(Accounts.congruence _ setting).step step trivial, fun h => .inr (.ok (.add h _))⟩

theorem roll (count sides : Float) :
    Follows setting lost exact (roll setting count sides : Eval σ Float stack)
      (roll setting' count sides) := by
  rcases diceCount_cases hv count with heq | ⟨most, herror, hlost⟩
  · exact (respects stack setting lost exact).roll_of_rollDice heq (fun _ _ => trivial)
      (fun _ _ => trivial) (rollDice hv)
  -- the second evaluation may roll here, and need not be followed
  · refine ⟨Accounts.roll count sides, fun {s s'} _ => .inl ?_⟩
    have hrefused : (Eval.roll setting count sides : Eval σ Float stack) = do
        Eval.enter (.tooManyDice count most)
        Eval.enterError (faceCount sides)
        return 1.0 := by
      unfold Eval.roll
      rw [herror]
      cases faceCount sides <;> rfl
    rw [hrefused]
    have hrest : Accounts setting (do
        Eval.enterError (faceCount sides)
        return 1.0 : Eval σ Float stack) :=
      .sequence ((Accounts.congruence _ setting).enterError fun _ _ => trivial) fun _ => .answer _
    exact (getsLost_enter hlost s).bind fun _ => hrest.exists_entries

theorem congruence : Congruence setting setting' fun _ (m m' : Eval σ _ stack) =>
    Follows setting lost exact m m' where
  toRespects := respects stack setting lost exact
  deeper := nested
  dice := roll hv

end Follows

/-- **Deeper limits.** With more levels, a nested evaluation goes on as with fewer, unless the
levels of the first run out. -/
theorem follows_descend {setting setting' : Setting σ} {lost : Problem → Prop} {exact : Prop}
    (hv : Varied setting setting' lost exact) (hdeep : ∀ most, lost (.tooDeep most))
    (levels extra : Nat) (entry : Entry) (t : Text) :
    Follows setting lost exact (descend setting levels entry t : Eval σ Float stack)
      (descend setting' (levels + extra) entry t) := by
  refine (Follows.congruence hv).descend_add extra (fun entry t => ?_) levels entry t
  cases extra with
  | zero => exact .refused (hdeep _) _
  | succ extra => exact .refused (hdeep _) _

end Reckoner

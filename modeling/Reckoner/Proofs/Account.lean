import Reckoner.Proofs.Congruence
import Reckoner.Proofs.Number.Rounding

/-!
# The ledger accounts for a run

Whatever a run does to the dice, to the number of dice shown and to the flag can be read off
the entries it adds: the state of the source afterwards is a replay of the rolls among them.
A run on an ample stack ends in a fault exactly if one of these rolls has a total that no double
comes near. One that exhausts its stack accounts for what it did up to then, but may have raised
the flag for a problem that it did not come to record.
-/

namespace Reckoner

open Eval

/-! ## What an entry tells -/

/-- How many dice an entry shows. -/
def Event.shown : Event → Nat
  | .roll (.rolled _ _ values _ _) => values.length
  | _ => 0

/-- Whether an entry is a roll whose total is beyond the largest double. -/
def Event.overflows : Event → Bool
  | .roll (.rolled _ _ _ _ total) => decide (Fraction.overflowFrom ≤ total.natAbs)
  | _ => false

namespace Source

variable {σ : Type}

/-- The state of a source once the dice of an entry are drawn. -/
def afterEntry (source : Source σ) (dice : σ) : Event → σ
  | .roll (.rolled count faces _ _ _) => (source.drawMany faces.toNat count.natAbs dice).2
  | _ => dice

/-- The state of a source once the dice of all entries are drawn. -/
def replay (source : Source σ) (entries : List Event) (dice : σ) : σ :=
  entries.foldl source.afterEntry dice

theorem replay_append (source : Source σ) (xs ys : List Event) (dice : σ) :
    source.replay (xs ++ ys) dice = source.replay ys (source.replay xs dice) := by
  simp [replay]

/-- Only rolls draw dice. -/
theorem replay_of_no_rolls (source : Source σ) {entries : List Event}
    (h : entries.filterMap Event.roll? = []) (dice : σ) : source.replay entries dice = dice := by
  have hnone := List.filterMap_eq_nil_iff.mp h
  clear h
  induction entries generalizing dice with
  | nil => rfl
  | cons e entries ih =>
    have hfirst : source.afterEntry dice e = dice := by
      cases e with
      | roll line => cases hnone _ List.mem_cons_self
      | _ => rfl
    show source.replay entries (source.afterEntry dice e) = dice
    rw [hfirst]
    exact ih dice fun e' he' => hnone e' (List.mem_cons_of_mem e he')

theorem replay_problems (source : Source σ) (problems : List Problem) (dice : σ) :
    source.replay (problems.map .problem) dice = dice :=
  source.replay_of_no_rolls (List.filterMap_eq_nil_iff.mpr fun _ he => by
    obtain ⟨p, -, rfl⟩ := List.mem_map.mp he
    rfl) dice

end Source

/-- The dice that all entries show. -/
def shownIn (entries : List Event) : Nat := (entries.map Event.shown).sum

theorem shownIn_append (xs ys : List Event) : shownIn (xs ++ ys) = shownIn xs + shownIn ys := by
  simp [shownIn]

theorem shownIn_problems (problems : List Problem) : shownIn (problems.map .problem) = 0 := by
  induction problems with
  | nil => rfl
  | cons p problems ih =>
    have : shownIn (.problem p :: problems.map .problem) =
        0 + shownIn (problems.map .problem) := by
      simp [shownIn, Event.shown]
    rw [List.map_cons, this, ih]

/-! ## What a ledger tells -/

namespace Ledger

variable {l : Ledger}

/-- What is read from the entries of one kind is told by these entries. -/
theorem mem_filterMap_events {α : Type} {read : Event → Option α} {entry : α → Event}
    (hread : ∀ e a, read e = some a ↔ e = entry a) {a : α} :
    a ∈ l.events.filterMap read ↔ entry a ∈ l.events := by
  rw [List.mem_filterMap]
  constructor
  · rintro ⟨e, he, ha⟩
    exact (hread e a).mp ha ▸ he
  · exact fun h => ⟨entry a, h, (hread _ a).mpr rfl⟩

theorem mem_problems {p : Problem} : p ∈ l.problems ↔ .problem p ∈ l.events :=
  mem_filterMap_events fun e p => by cases e <;> simp [Event.problem?]

theorem mem_steps {step : Step} : step ∈ l.steps ↔ .step step ∈ l.events :=
  mem_filterMap_events fun e step => by cases e <;> simp [Event.step?]

theorem mem_rolls {line : RollLine} : line ∈ l.rolls ↔ .roll line ∈ l.events :=
  mem_filterMap_events fun e line => by cases e <;> simp [Event.roll?]

end Ledger

/-! ## Rolling -/

namespace Eval

variable {σ : Type} {stack : Stack} (setting : Setting σ) (count : Int) (faces : Nat)
  (s : Progress σ stack)

/-- The total of a roll that starts in a state. -/
def rollTotal : Int :=
  signedInt (count < 0) ((setting.source.drawMany faces count.natAbs s.dice).1.foldl (· + ·) 0)

/-- The line of a roll that starts in a state. -/
def rollLine : RollLine :=
  let drawn := (setting.source.drawMany faces count.natAbs s.dice).1
  let shown := affordable setting.limits s.ledger.shown (rollHead count faces).length drawn
  .rolled count faces shown (shown.length < drawn.length) (rollTotal setting count faces s)

/-- The state that a roll leaves. -/
def afterRoll : Progress σ stack :=
  { s with
    ledger :=
      { s.ledger with
        events := s.ledger.events ++ [.roll (rollLine setting count faces s)]
        shown := s.ledger.shown + (Event.roll (rollLine setting count faces s)).shown }
    dice := (setting.source.drawMany faces count.natAbs s.dice).2 }

theorem failed_afterRoll : (afterRoll setting count faces s).failed = s.failed := rfl

theorem rollDice_apply :
    rollDice setting count faces s =
      match intToDouble? (rollTotal setting count faces s) with
      | some x => .ok x (afterRoll setting count faces s)
      | none => .error .totalTooLarge (afterRoll setting count faces s) := by
  show (match intToDouble? (rollTotal setting count faces s) with
    | some x => (pure x : Eval σ Float stack)
    | none => throw Fault.totalTooLarge) (afterRoll setting count faces s) = _
  cases intToDouble? (rollTotal setting count faces s) <;> rfl

end Eval

/-! ## Runs -/

/-- Whether there is a problem among some entries. -/
def troubled (entries : List Event) : Bool := entries.any (·.problem?.isSome)

theorem troubled_append (xs ys : List Event) : troubled (xs ++ ys) = (troubled xs || troubled ys) :=
  List.any_append

theorem troubled_eq_false_iff (entries : List Event) :
    troubled entries = false ↔ entries.filterMap Event.problem? = [] := by
  simp [troubled, List.any_eq_false, List.filterMap_eq_nil_iff]

/-- The flag is up exactly if there is a problem among the entries. -/
def Ledger.Flagged (l : Ledger) : Prop := l.failed = troubled l.events

theorem Ledger.Flagged.failed_eq_false_iff {l : Ledger} (h : l.Flagged) :
    l.failed = false ↔ l.problems = [] := by
  rw [h, troubled_eq_false_iff]
  rfl

/-- A run from one state to another that made these entries. -/
structure Recounts {σ : Type} {stack : Stack} (setting : Setting σ) (s t : Progress σ stack)
    (entries : List Event) : Prop where
  events : t.ledger.events = s.ledger.events ++ entries
  dice : t.dice = setting.source.replay entries s.dice
  shown : t.ledger.shown = s.ledger.shown + shownIn entries
  failed : t.failed = (s.failed || troubled entries)
  depth : t.depth = s.depth

namespace Recounts

variable {σ : Type} {stack : Stack} {setting : Setting σ} {s t u : Progress σ stack}
  {xs ys : List Event}

theorem refl (s : Progress σ stack) : Recounts setting s s [] :=
  ⟨(List.append_nil _).symm, rfl, rfl, (Bool.or_false _).symm, rfl⟩

theorem trans (h1 : Recounts setting s t xs) (h2 : Recounts setting t u ys) :
    Recounts setting s u (xs ++ ys) where
  events := by rw [h2.events, h1.events, List.append_assoc]
  dice := by rw [h2.dice, h1.dice, Source.replay_append]
  shown := by rw [h2.shown, h1.shown, shownIn_append, Nat.add_assoc]
  failed := by rw [h2.failed, h1.failed, troubled_append, Bool.or_assoc]
  depth := by rw [h2.depth, h1.depth]

theorem problem (s : Progress σ stack) (p : Problem) :
    Recounts setting s (s.add (.problem p)) [.problem p] :=
  ⟨rfl, rfl, rfl, (Bool.or_true _).symm, rfl⟩

theorem step (s : Progress σ stack) (step : Step) :
    Recounts setting s (s.add (.step step)) [.step step] :=
  ⟨rfl, rfl, rfl, (Bool.or_false _).symm, rfl⟩

theorem roll (s : Progress σ stack) (count : Int) (faces : Nat) :
    Recounts setting s (afterRoll setting count faces s)
      [.roll (rollLine setting count faces s)] :=
  ⟨rfl, rfl, rfl, (Bool.or_false _).symm, rfl⟩

/-- One level deeper and back the entries are the same. -/
theorem nested (h : Recounts setting (deeper s) t xs) :
    Recounts setting s (atDepth s.depth t) xs :=
  ⟨h.events, h.dice, h.shown, h.failed, rfl⟩

/-- What was entered before still has its problems after. -/
theorem clear (h : Recounts setting s t xs) (ht : t.failed = false) :
    s.failed = false ∧ troubled xs = false := by
  rw [h.failed, Bool.or_eq_false_iff] at ht
  exact ht

end Recounts

/-- A run leaves the flag right if it finds it so. -/
theorem Recounts.flagged {σ : Type} {stack : Stack} {setting : Setting σ}
    {s t : Progress σ stack} {entries : List Event} (h : Recounts setting s t entries)
    (hs : s.ledger.Flagged) : t.ledger.Flagged := by
  have ht : t.failed = (s.failed || troubled entries) := h.failed
  have hflag : s.failed = troubled s.ledger.events := hs
  rw [hflag, ← troubled_append, ← h.events] at ht
  exact ht

/-- Between two states nothing was rolled. -/
structure Unrolled {σ : Type} {stack : Stack} (s t : Progress σ stack) : Prop where
  dice : t.dice = s.dice
  rolls : t.ledger.rolls = s.ledger.rolls
  shown : t.ledger.shown = s.ledger.shown

namespace Unrolled

variable {σ : Type} {stack : Stack} {s t u : Progress σ stack}

theorem refl (s : Progress σ stack) : Unrolled s s := ⟨rfl, rfl, rfl⟩

theorem trans (h1 : Unrolled s t) (h2 : Unrolled t u) : Unrolled s u :=
  ⟨h2.dice.trans h1.dice, h2.rolls.trans h1.rolls, h2.shown.trans h1.shown⟩

theorem add (s : Progress σ stack) {e : Event} (h : e.roll? = none) : Unrolled s (s.add e) where
  dice := rfl
  rolls := by simp [Ledger.rolls, h]
  shown := rfl

end Unrolled

/-- Two states that are the same but for the flag, which the second one may have up. -/
def RaisedAtMost {σ : Type} {stack : Stack} (s t : Progress σ stack) : Prop := t = s ∨ t = s.raised

/-- An evaluation accounts for its runs: they make entries, and end in a fault if one of the
entries overflows, or where the stack is exhausted. -/
structure Accounts {σ α : Type} {stack : Stack} (setting : Setting σ) (m : Eval σ α stack) :
    Prop where
  ok : ∀ {s t a}, m s = .ok a t →
    ∃ entries, Recounts setting s t entries ∧ entries.any Event.overflows = false
  fault : ∀ {s t fault}, m s = .error fault t →
    (fault = .totalTooLarge ∧
      ∃ entries, Recounts setting s t entries ∧ entries.any Event.overflows = true) ∨
    (fault.escaping = none ∧ ∃ entries u, Recounts setting s u entries ∧
      entries.any Event.overflows = false ∧ RaisedAtMost u t)

namespace Accounts

variable {σ : Type} {stack : Stack} {setting : Setting σ}

/-- On an ample stack the only fault is a roll that overflows. -/
theorem error {α : Type} {m : Eval σ α} (hm : Accounts setting m) {s t : Progress σ}
    {fault : Fault} (h : m s = .error fault t) : fault = .totalTooLarge ∧
      ∃ entries, Recounts setting s t entries ∧ entries.any Event.overflows = true := by
  rcases hm.fault h with hover | ⟨hcaught, -⟩
  · exact hover
  · rw [escaping_ample] at hcaught
    cases hcaught

theorem rollDice (count : Int) (faces : Nat) :
    Accounts setting (rollDice setting count faces : Eval σ Float stack) := by
  have hline : ∀ s : Progress σ stack, (Event.roll (rollLine setting count faces s)).overflows =
      (intToDouble? (rollTotal setting count faces s)).isNone := by
    intro s
    rw [Bool.eq_iff_iff, Option.isNone_iff_eq_none, intToDouble?_eq_none_iff]
    simp [rollLine, Event.overflows]
  constructor
  · intro s t a h
    rw [rollDice_apply] at h
    have hs := hline s
    cases htotal : intToDouble? (rollTotal setting count faces s) with
    | none => rw [htotal] at h; cases h
    | some x =>
      rw [htotal] at h hs
      cases h
      exact ⟨_, .roll s count faces, by simp [hs]⟩
  · intro s t fault h
    rw [rollDice_apply] at h
    have hs := hline s
    cases htotal : intToDouble? (rollTotal setting count faces s) with
    | some x => rw [htotal] at h; cases h
    | none =>
      rw [htotal] at h hs
      cases h
      exact .inl ⟨rfl, _, .roll s count faces, by simp [hs]⟩

theorem answer {α : Type} (a : α) : Accounts setting (pure a : Eval σ α stack) where
  ok h := by
    cases h
    exact ⟨[], .refl _, rfl⟩
  fault h := by cases h

theorem enter (p : Problem) : Accounts setting (enter p : Eval σ Unit stack) where
  ok h := by
    obtain ⟨-, rfl⟩ := enter_eq_ok.mp h
    exact ⟨_, .problem _ p, rfl⟩
  fault h := by
    obtain ⟨hcaught, hraised⟩ := enter_eq_error h
    exact .inr ⟨hcaught, [], _, .refl _, rfl, hraised⟩

theorem sequence {α β : Type} {m : Eval σ α stack} {k : α → Eval σ β stack}
    (hm : Accounts setting m) (hk : ∀ a, Accounts setting (k a)) : Accounts setting (m >>= k) where
  ok h := by
    obtain ⟨a, t, h1, h2⟩ := bind_eq_ok.mp h
    obtain ⟨xs, hx, hcleanx⟩ := hm.ok h1
    obtain ⟨ys, hy, hcleany⟩ := (hk a).ok h2
    exact ⟨_, hx.trans hy, by rw [List.any_append, hcleanx, hcleany]; rfl⟩
  fault h := by
    rcases bind_eq_error.mp h with h1 | ⟨a, t, h1, h2⟩
    · exact hm.fault h1
    obtain ⟨xs, hx, hcleanx⟩ := hm.ok h1
    rcases (hk a).fault h2 with ⟨hfault, ys, hy, hover⟩ | ⟨hcaught, ys, u, hy, hcleany, hraised⟩
    · exact .inl ⟨hfault, _, hx.trans hy, by rw [List.any_append, hover, Bool.or_true]⟩
    · exact .inr ⟨hcaught, _, u, hx.trans hy,
        by rw [List.any_append, hcleanx, hcleany]; rfl, hraised⟩

theorem nested {α : Type} {m : Eval σ α stack} (hm : Accounts setting m) :
    Accounts setting (nested m) where
  ok h := by
    obtain ⟨-, t, h1, rfl⟩ := nested_eq_ok.mp h
    obtain ⟨xs, hx, hclean⟩ := hm.ok h1
    exact ⟨xs, hx.nested, hclean⟩
  fault {s u fault} h := by
    rcases nested_eq_error h with ⟨hcaught, rfl⟩ | ⟨t, h1, rfl⟩
    · exact .inr ⟨hcaught, [], _, .refl _, rfl, .inl rfl⟩
    rcases hm.fault h1 with ⟨hfault, xs, hx, hover⟩ | ⟨hcaught, xs, v, hx, hclean, hraised⟩
    · exact .inl ⟨hfault, xs, hx.nested, hover⟩
    · refine .inr ⟨hcaught, xs, atDepth s.depth v, hx.nested, hclean, ?_⟩
      exact hraised.imp (congrArg (atDepth s.depth)) (congrArg (atDepth s.depth))

variable (setting stack) in
theorem respects : Respects (fun _ => True) fun _ (m _ : Eval σ _ stack) => Accounts setting m where
  answer := answer
  sequence := sequence
  flag := ⟨fun h => by cases h; exact ⟨[], .refl _, rfl⟩, fun h => by cases h⟩
  problem p _ := enter p
  step step _ := ⟨fun h => by cases h; exact ⟨_, .step _ step, rfl⟩, fun h => by cases h⟩

theorem roll (count sides : Float) :
    Accounts setting (roll setting count sides : Eval σ Float stack) :=
  @Respects.roll_of_rollDice σ σ stack stack _ _ (respects stack setting) setting setting
    count sides rfl (fun _ _ => trivial) (fun _ _ => trivial) rollDice

variable (setting stack) in
theorem congruence :
    Congruence setting setting fun _ (m _ : Eval σ _ stack) => Accounts setting m where
  toRespects := respects stack setting
  deeper := nested
  dice := roll

end Accounts

variable {σ : Type} {stack : Stack} (setting : Setting σ)

theorem accounts_evaluateBare (t : Text) :
    Accounts setting (evaluateBare setting t : Eval σ Float stack) :=
  (Accounts.congruence stack setting).evaluateBare rfl rfl t

/-- However an evaluation ends, its flag tells whether there is a problem. -/
theorem flagged_evaluateExpression {dice after : σ} {t : Text} {e : Evaluation}
    (h : evaluateExpression setting dice t stack = .ok (e, after)) : e.ledger.Flagged := by
  rcases evaluateExpression_returns.mp h with ⟨value, u, hrun, rfl, -⟩ | ⟨fault, u, -, -, rfl, -⟩
  · obtain ⟨entries, hrecounts, -⟩ := (accounts_evaluateBare setting _).ok hrun
    exact hrecounts.flagged rfl
  · have hproblem : troubled (u.ledger.events ++ [.problem .tooComplex]) = true := by
      rw [troubled_append]
      exact Bool.or_true _
    exact hproblem.symm

end Reckoner

import Reckoner.Proofs.Kept
import Reckoner.Proofs.ReportLines
import Reckoner.Proofs.RollTotal

/-!
# What roll lines show

A line shows the first of its values and stops for good at the first one that a budget does not
allow, either that of the line or that of all lines together. So it shows the longest start of
its values all of whose own starts are within both budgets (`isGreatest_affordable`), and an
evaluation, which adds line to line, never shows more dice than all lines may
(`kept_keepsBudgets`).
-/

namespace Reckoner

open Eval

variable {σ : Type} {stack : Stack}

/-! ## One line -/

/-- The characters that values take up in a line, with the separator that each one may have
after it. -/
def lengthShown (values : List Nat) : Nat :=
  (values.map fun value => (natText value).length + 2).sum

/-- Both budgets have room for every start of the first `k` values, if all lines show `shown`
dice already and this one has reached `length` characters. -/
def Affords (limits : Limits) (shown length : Nat) (values : List Nat) (k : Nat) : Prop :=
  ∀ j, 1 ≤ j → j ≤ k → ((shown + j : Nat) : Int) ≤ limits.shownDice ∧
    ((length + lengthShown (values.take j) : Nat) : Int) ≤ limits.rollLineLength

section Budgets

variable {limits : Limits} {shown length value k : Nat} {rest : List Nat}

theorem affords_zero (values : List Nat) : Affords limits shown length values 0 := by
  intro j hj hk
  omega

/-- One value more is afforded if the first one is, and the others where it leaves the budgets. -/
theorem affords_cons : Affords limits shown length (value :: rest) (k + 1) ↔
    ¬(limits.shownDice ≤ shown ∨
        limits.rollLineLength < ((length + (natText value).length + 2 : Nat) : Int)) ∧
      Affords limits (shown + 1) (length + (natText value).length + 2) rest k := by
  have hlength : ∀ j, lengthShown ((value :: rest).take (j + 1)) =
      (natText value).length + 2 + lengthShown (rest.take j) := fun j => by
    simp [lengthShown]
  constructor
  · intro h
    have hfirst := h 1 le_rfl (by omega)
    rw [hlength, List.take_zero, lengthShown, List.map_nil, List.sum_nil] at hfirst
    refine ⟨by omega, fun j hj hk => ?_⟩
    have hlater := h (j + 1) (by omega) (by omega)
    rw [hlength] at hlater
    omega
  · rintro ⟨hfirst, hrest⟩ j hj hk
    obtain ⟨i, rfl⟩ := Nat.exists_eq_add_of_le' hj
    rw [hlength]
    rcases Nat.eq_zero_or_pos i with rfl | hi
    · rw [List.take_zero, lengthShown, List.map_nil, List.sum_nil]
      omega
    · have hlater := hrest i hi (by omega)
      omega

/-- What is shown is what both budgets afford. -/
theorem affords_iff {values : List Nat} (hk : k ≤ values.length) :
    Affords limits shown length values k ↔ k ≤ (affordable limits shown length values).length := by
  induction values generalizing shown length k with
  | nil =>
    obtain rfl : k = 0 := Nat.le_zero.mp hk
    exact iff_of_true (affords_zero _) (Nat.zero_le _)
  | cons value rest ih =>
    cases k with
    | zero => exact iff_of_true (affords_zero _) (Nat.zero_le _)
    | succ k =>
      -- one value that is too much ends the line, even if a later one had room again
      rw [affords_cons, ih (Nat.le_of_succ_le_succ hk), affordable]
      split_ifs with hfull
      · exact iff_of_false (fun h => h.1 hfull) (Nat.not_succ_le_zero k)
      · rw [List.length_cons, Nat.succ_le_succ_iff]
        exact and_iff_right hfull

/-- **What a line shows** is the longest start of its values that both budgets afford. -/
theorem isGreatest_affordable (limits : Limits) (shown length : Nat) (values : List Nat) :
    IsGreatest {k | k ≤ values.length ∧ Affords limits shown length values k}
      (affordable limits shown length values).length := by
  have hle := (affordable_isPrefix limits shown length values).length_le
  exact ⟨⟨hle, (affords_iff hle).mpr le_rfl⟩, fun k hk => (affords_iff hk.1).mp hk.2⟩

theorem affordable_eq_take (limits : Limits) (shown length : Nat) (values : List Nat) :
    affordable limits shown length values =
      values.take (affordable limits shown length values).length :=
  List.prefix_iff_eq_take.mp (affordable_isPrefix limits shown length values)

end Budgets

/-! ## The text of a line -/

/-- The values that a line shows. -/
def RollLine.shown : RollLine → List Nat
  | .rolled _ _ shown _ _ => shown
  | .stated _ => []

/-- The text of a line up to the last value that it shows. -/
def RollLine.upToShown : RollLine → Text
  | .rolled count faces shown _ _ =>
    rollHead count faces ++ Text.join [',', ' '] (shown.map natText)
  | .stated line => line.toList

/-- The values without the separator after the last one. -/
theorem length_join_values {values : List Nat} (h : values ≠ []) :
    (Text.join [',', ' '] (values.map natText)).length + 2 = lengthShown values := by
  induction values with
  | nil => exact absurd rfl h
  | cons value rest ih =>
    cases rest with
    | nil => simp [join_singleton, lengthShown]
    | cons next rest =>
      have hjoin : Text.join [',', ' '] ((value :: next :: rest).map natText) =
          natText value ++ ([',', ' '] ++ Text.join [',', ' '] ((next :: rest).map natText)) := by
        simp [Text.join]
      have hrest := ih (List.cons_ne_nil next rest)
      have hsum : lengthShown (value :: next :: rest) =
          (natText value).length + 2 + lengthShown (next :: rest) := rfl
      rw [hjoin, hsum, ← hrest]
      simp only [List.length_append, List.length_cons, List.length_nil]
      omega

theorem shownBy_eq_take (setting : Setting σ) (n : Int) (faces : Nat) (s : Progress σ stack) :
    shownBy setting n faces s =
      (drawnBy setting n faces s).take (shownBy setting n faces s).length :=
  affordable_eq_take _ _ _ _

/-- Up to its last value the line of a roll keeps to the length of a line. -/
theorem length_upToShown_rollLine (setting : Setting σ) (count : Int) (faces : Nat)
    (s : Progress σ stack) (h : (rollLine setting count faces s).shown ≠ []) :
    ((rollLine setting count faces s).upToShown.length : Int) ≤ setting.limits.rollLineLength := by
  have hshown : (rollLine setting count faces s).shown = shownBy setting count faces s := rfl
  rw [hshown] at h
  obtain ⟨-, hafford⟩ := (isGreatest_affordable setting.limits s.ledger.shown
    (rollHead count faces).length (drawnBy setting count faces s)).1
  obtain ⟨-, hlength⟩ := hafford _ (List.length_pos_iff.mpr h) le_rfl
  rw [← shownBy_eq_take, ← length_join_values h] at hlength
  have htext : (rollLine setting count faces s).upToShown.length =
      (rollHead count faces).length +
        (Text.join [',', ' '] ((shownBy setting count faces s).map natText)).length :=
    List.length_append
  rw [htext]
  omega

/-! ## All lines of an evaluation -/

/-- From one state to another these entries were made, whose lines keep to the length of a line
up to their last values; the dice that they show are counted, and the count keeps to the number
that all lines may show. -/
structure KeepsBudgets (limits : Limits) (s u : Progress σ stack) (entries : List Event) : Prop where
  events : u.ledger.events = s.ledger.events ++ entries
  shown : u.ledger.shown = s.ledger.shown + shownIn entries
  dice : (u.ledger.shown : Int) ≤ max (s.ledger.shown : Int) limits.shownDice
  lines : ∀ line, .roll line ∈ entries → line.shown ≠ [] →
    (line.upToShown.length : Int) ≤ limits.rollLineLength

namespace KeepsBudgets

variable {limits : Limits} {s t u : Progress σ stack} {xs ys : List Event}

theorem refl (s : Progress σ stack) : KeepsBudgets limits s s [] where
  events := (List.append_nil _).symm
  shown := rfl
  dice := le_max_left _ _
  lines _ h := by cases h

theorem trans (h : KeepsBudgets limits s t xs) (h' : KeepsBudgets limits t u ys) :
    KeepsBudgets limits s u (xs ++ ys) where
  events := by rw [h'.events, h.events, List.append_assoc]
  shown := by rw [h'.shown, h.shown, shownIn_append, Nat.add_assoc]
  dice := h'.dice.trans (max_le h.dice (le_max_right _ _))
  lines line hline := (List.mem_append.mp hline).elim (h.lines line) (h'.lines line)

/-- Entries other than rolls leave the budgets alone. -/
theorem add (s : Progress σ stack) {e : Event} (he : ∀ line, e ≠ .roll line) :
    KeepsBudgets limits s (s.add e) [e] where
  events := rfl
  shown := by
    cases e with
    | roll line => exact absurd rfl (he line)
    | problem p => rfl
    | step step => rfl
  dice := le_max_left _ _
  lines line hline := absurd (List.mem_singleton.mp hline).symm (he line)

theorem roll (setting : Setting σ) (s : Progress σ stack) (count : Int) (faces : Nat) :
    KeepsBudgets setting.limits s (afterRoll setting count faces s)
      [.roll (rollLine setting count faces s)] where
  events := rfl
  shown := rfl
  dice := shown_add_length_affordable_le _ _ _ _
  lines line hline hshown := by
    cases Event.roll.inj (List.mem_singleton.mp hline)
    exact length_upToShown_rollLine setting count faces s hshown

end KeepsBudgets

end Reckoner

import Reckoner.Session
import Reckoner.Proofs.Growth
import Reckoner.Proofs.Outcome

/-!
# What the calls of a session keep

All calls of a session work on one state, and a call that ends in a fault leaves it as it is
at that moment. So what holds between calls has to hold wherever a run can end: entries are
added and never taken away, the depth is back to what it was, and no call goes deeper than its
limits say. A problem raises the flag first, and where the stack runs out right after that the
flag is up alone.
-/

namespace Reckoner

open Eval

variable {σ α : Type} {stack : Stack}

/-! ## Calls -/

/-- The value of a session after a call. -/
def Call.valueAfter (value : Float) : Call → Float
  | .setValue newValue => newValue
  | _ => value

namespace Session

/-- Whether the flag is up. -/
def failed (s : Session σ stack) : Bool := s.progress.failed

/-- The same session with another record of the greatest depth. -/
def withRecord (s : Session σ stack) (deepest : Nat) : Session σ stack :=
  { s with progress := s.progress.withRecord deepest }

/-- A call that the stack is too small for. -/
def RunsOut (setting : Setting σ) (s : Session σ stack) (call : Call) : Prop :=
  ∃ bounded, (s.step setting call).1 = .error (.stackExhausted bounded)

/-- What holds of the answer to a call, however it ends. -/
structure Answered (setting : Setting σ) (s : Session σ stack) (call : Call) : Prop where
  ledger : s.progress.ledger.Continues (s.step setting call).2.progress.ledger
  marked : s.progress.ledger.Marked → (s.step setting call).2.progress.ledger.Marked
  flagged : s.progress.ledger.Flagged →
    (s.step setting call).2.progress.ledger.Flagged ∨ s.RunsOut setting call
  expression : (s.step setting call).2.expression = s.expression
  value : (s.step setting call).2.value = call.valueAfter s.value
  depth : (s.step setting call).2.progress.depth = s.progress.depth
  reach : ∃ reach ≤ s.progress.depth + setting.limits.maxDepth.toNat, ∀ record,
    (s.withRecord record).step setting call =
      ((s.step setting call).1, (s.step setting call).2.withRecord (max record reach))

variable {setting : Setting σ} {s : Session σ stack} {call : Call}

/-- A call that only looks at the session, or gives it a value. -/
theorem Answered.of_still (hledger : (s.step setting call).2.progress = s.progress)
    (hexpression : (s.step setting call).2.expression = s.expression)
    (hvalue : (s.step setting call).2.value = call.valueAfter s.value)
    (hblind : ∀ record, (s.withRecord record).step setting call =
      ((s.step setting call).1, (s.step setting call).2.withRecord record)) :
    Answered setting s call where
  ledger := by
    rw [hledger]
    exact .refl _
  marked h := by rwa [hledger]
  flagged h := .inl (by rwa [hledger])
  expression := hexpression
  value := hvalue
  depth := by rw [hledger]
  reach := ⟨0, Nat.zero_le _, fun record => by rw [Nat.max_zero, hblind]⟩

theorem progress_perform (s : Session σ stack) (reply : α → Reply) (m : Eval σ α stack) :
    (s.perform reply m).2.progress = lastState (m s.progress) := by
  rw [perform]
  cases m s.progress <;> rfl

/-- A call that is performed by a step. -/
theorem Answered.of_grows (m : Eval σ α stack) (reply : α → Reply)
    (hm : Grows setting setting.limits.maxDepth.toNat m)
    (hcall : ∀ s : Session σ stack, s.step setting call = s.perform reply m)
    (hvalue : call.valueAfter s.value = s.value) : Answered setting s call := by
  have haccounted := hm.accounted s.progress
  have hprogress : (s.step setting call).2.progress = lastState (m s.progress) := by
    rw [hcall, progress_perform]
  obtain ⟨reach, hreach, hrun⟩ := hm.reach s.progress
  have hrecord : ∀ record, (s.withRecord record).step setting call =
      ((s.step setting call).1, (s.step setting call).2.withRecord (max record reach)) := by
    intro record
    rw [hcall, hcall, perform, perform]
    have hprogress : (s.withRecord record).progress = s.progress.withRecord record := rfl
    rw [hprogress, hrun]
    cases m s.progress <;> rfl
  constructor
  · rw [hprogress]
    exact haccounted.ledger
  · rw [hprogress]
    exact haccounted.marked
  · intro hs
    rw [hprogress]
    refine (haccounted.flagged hs).imp_right fun ⟨fault, t, hend, hcaught⟩ => ?_
    obtain ⟨bounded, rfl⟩ := Fault.eq_stackExhausted hcaught
    exact ⟨bounded, by rw [hcall, perform, hend]⟩
  · rw [hcall, perform]
    cases m s.progress <;> rfl
  · rw [hcall, perform, hvalue]
    cases m s.progress <;> rfl
  · rw [hprogress]
    exact haccounted.depth
  · exact ⟨reach, hreach, hrecord⟩

/-- **Every call keeps what holds of sessions.** -/
theorem answered (setting : Setting σ) (s : Session σ stack) (call : Call) :
    Answered setting s call := by
  have hcombine : ∀ o, o ≠ .dice → ∀ left right fragment,
      Grows setting setting.limits.maxDepth.toNat
        (combine setting o left right fragment : Eval σ Float stack) :=
    fun o ho left right fragment => @Respects.combine σ σ stack stack _ _
      (Grows.respects stack setting _) setting setting o left right (fun hdice => absurd hdice ho)
      fragment (.all fragment)
  cases call with
  | fail kind message =>
    refine .of_grows (stateProblem kind message) (fun _ => .nothing) ?_ (fun _ => rfl) rfl
    unfold stateProblem
    split
    · exact .enter _
    · exact .fault _
  | note message fragment =>
    exact .of_grows _ (fun _ => .nothing) (.note (.stated message fragment)) (fun _ => rfl) rfl
  | addRoll line =>
    let m : Eval σ Unit stack :=
      modify fun p => { p with ledger := p.ledger.add (.roll (.stated line)) }
    have hentry : ∀ s : Progress σ stack,
        Recounts setting s (lastState (m s)) [.roll (.stated line)] := fun s =>
      ⟨rfl, rfl, rfl, (Bool.or_false _).symm, rfl⟩
    have hm : Grows setting setting.limits.maxDepth.toNat m :=
      .of_blind (fun s => ⟨_, hentry s⟩) fun _ _ => rfl
    exact .of_grows m (fun _ => .nothing) hm (fun _ => rfl) rfl
  | setValue value => exact .of_still rfl rfl rfl fun _ => rfl
  | outcome => exact .of_still rfl rfl rfl fun _ => rfl
  | message => exact .of_still rfl rfl rfl fun _ => rfl
  | kinds => exact .of_still rfl rfl rfl fun _ => rfl
  | report verbose => exact .of_still rfl rfl rfl fun _ => rfl
  | divide left right fragment =>
    exact .of_grows _ .number (hcombine .divide nofun left right fragment) (fun _ => rfl) rfl
  | modulo left right fragment =>
    exact .of_grows _ .number (hcombine .modulo nofun left right fragment) (fun _ => rfl) rfl
  | power left right fragment =>
    exact .of_grows _ .number (hcombine .power nofun left right fragment) (fun _ => rfl) rfl
  | factorial value =>
    exact .of_grows _ .number ((Grows.respects stack setting _).factorial value (.all []))
      (fun _ => rfl) rfl
  | roll count sides => exact .of_grows _ .number (.roll count sides) (fun _ => rfl) rfl
  | evaluate expression =>
    exact .of_grows _ .number (.evaluate setting expression) (fun _ => rfl) rfl
  | simplify expression start stop inner =>
    exact .of_grows _ (fun t => .text t.toString)
      (.simplify setting expression start stop inner) (fun _ => rfl) rfl

/-! ## Runs of a session -/

/-- A session after calls, each with a source and limits of its own. -/
def run (s : Session σ stack) (calls : List (Setting σ × Call)) : Session σ stack :=
  calls.foldl (fun s call => (s.step call.1 call.2).2) s

/-- Among some calls there is one that the stack is too small for. -/
def RunsOutAmong (s : Session σ stack) (calls : List (Setting σ × Call)) : Prop :=
  ∃ earlier call rest, calls = earlier ++ call :: rest ∧ (s.run earlier).RunsOut call.1 call.2

theorem RunsOutAmong.cons {s : Session σ stack} {call : Setting σ × Call}
    {calls : List (Setting σ × Call)} (h : (s.step call.1 call.2).2.RunsOutAmong calls) :
    s.RunsOutAmong (call :: calls) := by
  obtain ⟨earlier, last, rest, rfl, hout⟩ := h
  exact ⟨call :: earlier, last, rest, rfl, hout⟩

/-- A later session goes on from an earlier one. -/
structure Continues (earlier later : Session σ stack) : Prop where
  problems : earlier.progress.ledger.problems <+: later.progress.ledger.problems
  steps : earlier.progress.ledger.steps <+: later.progress.ledger.steps
  rollText : earlier.progress.ledger.rollText <+: later.progress.ledger.rollText
  shown : earlier.progress.ledger.shown ≤ later.progress.ledger.shown
  failed : earlier.failed = true → later.failed = true

theorem Continues.of_ledger {s s' : Session σ stack}
    (h : s.progress.ledger.Continues s'.progress.ledger) : s.Continues s' :=
  ⟨h.problems, h.steps, h.rollText, h.shown, h.failed⟩

/-- What calls keep, the calls of a run keep together. -/
theorem run_keeps (s : Session σ stack) (calls : List (Setting σ × Call)) :
    s.progress.ledger.Continues (s.run calls).progress.ledger ∧
      (s.run calls).expression = s.expression ∧
      (s.run calls).value = calls.foldl (fun value call => call.2.valueAfter value) s.value ∧
      (s.run calls).progress.depth = s.progress.depth := by
  induction calls generalizing s with
  | nil => exact ⟨.refl _, rfl, rfl, rfl⟩
  | cons call calls ih =>
    have hcall := answered call.1 s call.2
    obtain ⟨hledger, hexpression, hvalue, hdepth⟩ := ih (s.step call.1 call.2).2
    refine ⟨hcall.ledger.trans hledger, hexpression.trans hcall.expression, ?_,
      hdepth.trans hcall.depth⟩
    rw [List.foldl_cons, ← hcall.value]
    exact hvalue

/-- Flag and problems through a run: only where the stack runs out do they come apart, and then
it is the flag that is up. -/
theorem run_flag (s : Session σ stack) (calls : List (Setting σ × Call)) :
    (s.progress.ledger.Marked → (s.run calls).progress.ledger.Marked) ∧
      (s.progress.ledger.Flagged →
        (s.run calls).progress.ledger.Flagged ∨ s.RunsOutAmong calls) := by
  induction calls generalizing s with
  | nil => exact ⟨id, .inl⟩
  | cons call calls ih =>
    have hcall := answered call.1 s call.2
    obtain ⟨hmarked, hflagged⟩ := ih (s.step call.1 call.2).2
    refine ⟨hmarked ∘ hcall.marked, fun hs => ?_⟩
    rcases hcall.flagged hs with hstep | hout
    · exact (hflagged hstep).imp_right .cons
    · exact .inr ⟨[], call, calls, rfl, hout⟩

/-- **What holds throughout a session.** After any calls of a session, whether or not some of
them ended in a fault, and however it goes on: problems, steps and the text of the rolls are
only added to, no fewer dice count as shown, and what has failed remains so. The flag is up if
there is a problem, and if the stack was large enough for all calls, only then. The expression is
the first one, the value is the last one given, and the depth is zero. A next call goes no
deeper than its limits say: it compares the record of the greatest depth with a depth within
them, and does nothing else with it. -/
theorem session_invariants (expression : Text) (dice : σ) (calls later : List (Setting σ × Call))
    (setting : Setting σ) (call : Call) :
    let first : Session σ stack := start expression dice
    let s := first.run calls
    s.Continues (s.run later) ∧
      (s.progress.ledger.problems ≠ [] → s.failed = true) ∧
      (s.failed = true → s.progress.ledger.problems ≠ [] ∨ first.RunsOutAmong calls) ∧
      s.expression = expression ∧
      s.value = calls.foldl (fun value call => call.2.valueAfter value) 0.0 ∧
      s.progress.depth = 0 ∧
      ∃ reach ≤ setting.limits.maxDepth.toNat, ∀ record,
        (s.withRecord record).step setting call =
          ((s.step setting call).1, (s.step setting call).2.withRecord (max record reach)) := by
  intro first s
  obtain ⟨-, hexpression, hvalue, hdepth⟩ := run_keeps first calls
  obtain ⟨hmarked, hflagged⟩ := run_flag first calls
  obtain ⟨hledger, -, -, -⟩ := run_keeps s later
  obtain ⟨reach, hreach, hrecord⟩ := (answered setting s call).reach
  have hzero : s.progress.depth = 0 := hdepth
  rw [hzero, Nat.zero_add] at hreach
  refine ⟨.of_ledger hledger, hmarked fun h => absurd rfl h, fun hfailed => ?_, hexpression,
    hvalue, hzero, reach, hreach, hrecord⟩
  refine (hflagged rfl).imp_left fun hflag hnone => ?_
  rw [← hflag.failed_eq_false_iff] at hnone
  rw [failed, Progress.failed, hnone] at hfailed
  cases hfailed

/-- On a stack that has room for the flag and then none for the record, a numeral that is none
leaves the flag up without a problem. -/
theorem session_flag_alone :
    let stack := Stack.bounded fun use _ => use != .record
    let first : Session Feed stack := start [] .low
    let s := first.run [(usual, .evaluate ['x'])]
    s.failed = true ∧ s.progress.ledger.problems = [] := by
  decide +kernel

end Session

end Reckoner

/-!
# The stack under an evaluation

Nested evaluations pile up on the stack of the machine that runs them, and the calls that
enter a problem need room on it too. How much of it they take is the machine's business: a
stack only tells at which depth of nesting there is room for what, and does not tell apart the
evaluations that lead there. Where there is no room, the evaluation ends at once with a fault, in
the middle of what it was doing.
-/

namespace Reckoner

/-- What needs room on the stack. -/
inductive StackUse where
  /-- A nested evaluation, with all that it calls by itself. -/
  | evaluation
  /-- The call that enters a problem. -/
  | problem
  /-- The record that this call makes of the problem, once the flag is up. -/
  | record
deriving DecidableEq, Repr

/-- A stack, by what it has room for. -/
inductive Stack where
  /-- There is always room. -/
  | ample
  /-- There is as much room at a depth as the function says. -/
  | bounded (room : StackUse → Nat → Bool)

namespace Stack

/-- Whether a stack has room at a depth of nesting. Outside of all nested evaluations there
always is room. -/
def hasRoom : Stack → StackUse → Nat → Bool
  | ample, _, _ => true
  | bounded room, use, depth => depth == 0 || room use depth

/-- A stack with room for so many nested evaluations, and for the problems that they enter. -/
def ofLevels (levels : Nat) : Stack := bounded fun _ depth => depth ≤ levels

/-- There is room for everything at so many levels of nesting. -/
def Holds (stack : Stack) (levels : Nat) : Prop :=
  ∀ use depth, depth ≤ levels → stack.hasRoom use depth = true

theorem ne_ample {stack : Stack} {use : StackUse} {depth : Nat}
    (h : ¬stack.hasRoom use depth = true) : stack ≠ ample := by
  rintro rfl
  exact h rfl

end Stack

/-- What ends an evaluation, or a call of a session, without an answer. -/
inductive Fault (stack : Stack := .ample) where
  /-- The total of a roll is beyond the largest double. -/
  | totalTooLarge
  /-- A position lies outside the text. -/
  | noSuchPosition
  /-- There is no category of problems by this name. -/
  | noSuchKind
  /-- There is no room left on the stack, which an ample one never runs out of. -/
  | stackExhausted (bounded : stack ≠ .ample)
deriving DecidableEq, Repr

namespace Fault

variable {stack : Stack}

/-- The fault that an evaluation of an expression ends in for a fault on its stack. The stack
running out is no such fault: it is caught. -/
def escaping : Fault stack → Option Fault
  | totalTooLarge => some totalTooLarge
  | noSuchPosition => some noSuchPosition
  | noSuchKind => some noSuchKind
  | stackExhausted _ => none

/-- The stack running out is the only fault that is caught. -/
theorem eq_stackExhausted {fault : Fault stack} (h : fault.escaping = none) :
    ∃ bounded, fault = stackExhausted bounded := by
  cases fault with
  | stackExhausted bounded => exact ⟨bounded, rfl⟩
  | _ => cases h

/-- A fault that needs no stack to come about, on any stack. -/
def onStack : Fault → Fault stack
  | totalTooLarge => totalTooLarge
  | noSuchPosition => noSuchPosition
  | noSuchKind => noSuchKind

end Fault

end Reckoner

import Reckoner.Dice.Source
import Reckoner.Evaluation.Stack
import Reckoner.Ledger

/-!
# Steps of an evaluation

An evaluation step reads the limits and the source of dice, and changes the ledger,
the state of the source and the depth. Problems go to the ledger and the step goes
on with the value `1`; only a fault ends it, and even then the state reached so far
is kept. On a bounded stack there is one more fault: where a step goes deeper than the
stack has room for.
-/

namespace Reckoner

/-- Bounds that keep one evaluation small. -/
structure Limits where
  /-- How many dice may be rolled at once. -/
  maxDice : Int := 999999
  /-- How long a roll line may grow by its values. -/
  rollLineLength : Int := 80
  /-- How many dice the roll lines of one evaluation may show. -/
  shownDice : Int := 8
  /-- How deep expressions may nest. -/
  maxDepth : Int := 100
  /-- How many characters an expression may have, blanks aside. -/
  maxLength : Int := 1000
deriving DecidableEq, Repr

/-- What an evaluation reads and never changes. -/
structure Setting (σ : Type) where
  source : Source σ
  limits : Limits

/-- What an evaluation changes when it runs on a stack. -/
structure Progress (σ : Type) (stack : Stack := .ample) where
  ledger : Ledger := {}
  /-- The state of the source of dice. -/
  dice : σ
  /-- How many nested evaluations are under way. -/
  depth : Nat := 0
  /-- The greatest depth so far. -/
  deepest : Nat := 0

/-- A step of an evaluation on a stack, which is an ample one where none is named. -/
abbrev Eval (σ α : Type) (stack : Stack := .ample) := EStateM (Fault stack) (Progress σ stack) α

namespace Eval

variable {σ α : Type} {stack : Stack}

/-- Whether the flag of the ledger is up. -/
def failed : Eval σ Bool stack := return (← get).ledger.failed

/-- Goes on if the stack has room at a depth. -/
def require (use : StackUse) (depth : Nat) : Eval σ Unit stack :=
  if h : stack.hasRoom use depth then pure () else throw (.stackExhausted (Stack.ne_ample h))

/-- Enters a problem: raises the flag, and then adds the record of the problem. If there is no
room for the record, the flag is up all the same. -/
def enter (p : Problem) : Eval σ Unit stack := do
  let depth := (← get).depth
  require .problem depth
  modify fun s => { s with ledger := s.ledger.raise }
  require .record depth
  modify fun s => { s with ledger := s.ledger.add (.problem p) }

/-- Enters a problem and goes on with the neutral value. -/
def refuse (p : Problem) : Eval σ Float stack := do
  enter p
  return 1.0

def note (step : Step) : Eval σ Unit stack :=
  modify fun s => { s with ledger := s.ledger.add (.step step) }

/-- The answer of `next`, or the neutral value once the flag is up. -/
def unlessFailed (next : Eval σ Float stack) : Eval σ Float stack := do
  if ← failed then return 1.0 else next

/-- Runs a step one level deeper, if there is room for it; the depth comes back to what it was,
also when a fault ends the step. -/
def nested (step : Eval σ α stack) : Eval σ α stack := fun s =>
  let inner := s.depth + 1
  if h : stack.hasRoom .evaluation inner then
    match step { s with depth := inner, deepest := max s.deepest inner } with
    | .ok value t => .ok value { t with depth := s.depth }
    | .error fault t => .error fault { t with depth := s.depth }
  else .error (.stackExhausted (Stack.ne_ample h)) s

end Eval

end Reckoner

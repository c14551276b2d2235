import Reckoner.Evaluation.Group

/-!
# Evaluating an expression

The tiers are tied together here. A nested evaluation has one level less to spend
than the one it is nested in, and without a level left it is refused; so the
recursion is on the levels, and the depth that is reached never exceeds the limit.
-/

namespace Reckoner

namespace Eval

variable {σ : Type} {stack : Stack}

/-- The tiers of binary operators over the factorial. -/
def operators (setting : Setting σ) (recur : Recur σ stack) : Text → Eval σ Float stack :=
  splitTier setting recur .additive <|
    splitTier setting recur .multiplicative <|
      splitTier setting recur .powers <|
        splitTier setting recur .diceAndModulo <|
          factorialTier recur

/-- Groups first, then the tiers. -/
def groupsThenOperators (setting : Setting σ) (recur : Recur σ stack) (t : Text) :
    Eval σ Float stack := do
  let flat ← resolveGroups recur t
  unlessFailed (operators setting recur flat)

/-- Evaluates a text from an entry on. -/
def step (setting : Setting σ) (recur : Recur σ stack) : Entry → Text → Eval σ Float stack
  | .whole => groupsThenOperators setting recur
  | .operand => operators setting recur
  | .factorial => factorialTier recur
  | .application => application recur

/-- Evaluates a nested text with so many levels to spend. -/
def descend (setting : Setting σ) : Nat → Recur σ stack
  | 0, _, _ => unlessFailed (refuse (.tooDeep setting.limits.maxDepth))
  | levels + 1, entry, t =>
    unlessFailed (nested (step setting (descend setting levels) entry t))

/-- Nested evaluation with all levels that the limits grant. -/
def topmost (setting : Setting σ) : Recur σ stack := descend setting setting.limits.maxDepth.toNat

/-- Evaluates a text without blanks. -/
def evaluate (setting : Setting σ) (t : Text) : Eval σ Float stack := topmost setting .whole t

/-- Folds the group between two positions of a text, with `inner` as its contents. -/
def simplify (setting : Setting σ) (t : Text) (start stop : Int) (inner : Text) :
    Eval σ Text stack :=
  foldGroup (topmost setting) (.atPositions t start stop) inner

/-- Evaluates what is left of an expression without its blanks. The value is not to
be trusted once a problem has been entered. -/
def evaluateBare (setting : Setting σ) (t : Text) : Eval σ Float stack := do
  if t.isEmpty then
    enter .nothingToEvaluate
    return 0.0
  else if setting.limits.maxLength < t.length then
    enter (.tooLong t.length setting.limits.maxLength)
    return 0.0
  else
    let value ← evaluate setting t
    if !(← failed) && !value.isFinite then enter .resultTooLarge
    return value

end Eval

/-! ## Finished evaluations -/

/-- An expression with what came of it. -/
structure Evaluation where
  expression : Text
  value : Float := 0.0
  ledger : Ledger := {}
deriving DecidableEq

/-- A value to be trusted, or what went wrong. -/
inductive Outcome where
  | value (value : Float)
  | failure (messages : List String) (steps : List Step)
deriving DecidableEq

namespace Evaluation

def failed (e : Evaluation) : Bool := e.ledger.failed

def outcome (e : Evaluation) : Outcome :=
  if e.failed then .failure e.ledger.messages e.ledger.steps else .value e.value

end Evaluation

/-- Evaluates an expression as a person types it, and gives the state of the dice afterwards.
If the stack runs out on the way, what was entered up to then stays, and the expression is too
complex. -/
def evaluateExpression {σ : Type} (setting : Setting σ) (dice : σ) (expression : Text)
    (stack : Stack := .ample) : Except Fault (Evaluation × σ) :=
  let run : Eval σ Float stack := Eval.evaluateBare setting expression.withoutBlanks
  match run { dice } with
  | .ok value s => .ok ({ expression, value, ledger := s.ledger }, s.dice)
  | .error fault s => match fault.escaping with
    | some fault => .error fault
    | none => .ok ({ expression, ledger := s.ledger.raise.add (.problem .tooComplex) }, s.dice)

end Reckoner

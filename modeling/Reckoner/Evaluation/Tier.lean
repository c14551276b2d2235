import Reckoner.Evaluation.Operator
import Reckoner.Text.Bracket

/-!
# Tiers of binary operators

A tier cuts a text at all its split points at once and folds the operands from the
left, so that every operator is left-associative and a long chain needs no deeper
nesting than a short one. Nested evaluations are reached through a parameter,
`recur`; nothing in this file calls itself through it.
-/

namespace Reckoner

/-- Where a nested evaluation starts. -/
inductive Entry where
  /-- Groups first, then the tiers. -/
  | whole
  /-- The tiers, lowest precedence first. -/
  | operand
  /-- The factorial and what binds tighter. -/
  | factorial
  /-- Functions, constants and numerals. -/
  | application
deriving DecidableEq, Repr

/-- A way to evaluate a nested text. -/
abbrev Recur (σ : Type) (stack : Stack := .ample) := Entry → Text → Eval σ Float stack

/-- An operator with the operand on its right. -/
structure Cut where
  operator : Operator
  right : Text
  /-- The text up to the end of the operand. -/
  fragment : Text
deriving DecidableEq, Repr

/-- The cuts that the split points make in a text. An operand reaches to the next
split point. -/
def cuts (t : Text) : List Nat → List Cut
  | [] => []
  | point :: points =>
    let fragment := t.take (points.headD t.length)
    { operator := .ofSymbol (t.getD point ' ')
      right := fragment.drop (point + 1)
      fragment } :: cuts t points

theorem length_cuts (t : Text) (points : List Nat) : (cuts t points).length = points.length := by
  induction points with
  | nil => rfl
  | cons point points ih => simp [cuts, ih]

namespace Eval

variable {σ : Type} {stack : Stack}

/-- An operand that is left out has the neutral value of its tier. -/
def operand (recur : Recur σ stack) (neutral : Float) (t : Text) : Eval σ Float stack :=
  if t.isEmpty then return neutral else recur .operand t

/-- Folds the cuts from the left, starting with the value of what is before them. -/
def foldCuts (setting : Setting σ) (recur : Recur σ stack) (neutral : Float) :
    Float → List Cut → Eval σ Float stack
  | left, [] => return left
  | left, cut :: rest => do
    let right ← operand recur neutral cut.right
    unlessFailed do
      let result ← combine setting cut.operator left right cut.fragment
      unlessFailed do
        note (.binary left cut.operator.symbol right result cut.fragment)
        foldCuts setting recur neutral result rest

/-- Evaluates a text at a tier; without a split point it goes to the `next` tier as
it is. -/
def splitTier (setting : Setting σ) (recur : Recur σ stack) (tier : Tier)
    (next : Text → Eval σ Float stack) (t : Text) : Eval σ Float stack :=
  unlessFailed do
    match splitPoints tier.symbols tier.signed t with
    | [] => next t
    | first :: later => do
      let start ← operand recur tier.neutral (t.take first)
      foldCuts setting recur tier.neutral start (cuts t (first :: later))

end Eval

end Reckoner

import Reckoner.Evaluation.Application
import Reckoner.Text.Position

/-!
# Groups

Groups in round brackets are folded into the text, innermost first: the first `)`
closes the nearest `(` before it. A group without a top-level comma is replaced by
its value, with a `*` next to an adjacent digit; one with a comma is the argument
list of a function and only changes its brackets and separators. Each round removes
one `)`, so there are as many rounds as there are of those.
-/

namespace Reckoner

/-- A group's place in a text. -/
structure Site where
  /-- The text that the group stands in. -/
  whole : Text
  before : Text
  after : Text
  /-- The character next to the group on the left, if there is one. Looking for it
  may be a fault where the place was given by positions. -/
  leftNeighbour : Except Fault (Option Char)
  rightNeighbour : Except Fault (Option Char)

namespace Site

/-- The place of `(inner)` between two parts of a text. -/
def between (before inner after : Text) : Site where
  whole := before ++ '(' :: inner ++ ')' :: after
  before
  after
  leftNeighbour := .ok before.getLast?
  rightNeighbour := .ok after.head?

/-- The character at a position that has to be in the text. -/
def charAt (t : Text) (position : Int) : Except Fault (Option Char) :=
  match t.charAt? position with
  | some c => .ok (some c)
  | none => .error .noSuchPosition

/-- The place between two positions, whatever the text holds there. Nothing is to the
left of position zero or of one counted from the end; what follows the last
position is looked at unless the text ends there. -/
def atPositions (t : Text) (start stop : Int) : Site where
  whole := t
  before := t.upTo start
  after := t.onward (stop + 1)
  leftNeighbour := if 0 < start then charAt t (start - 1) else .ok none
  rightNeighbour := if stop + 1 < t.length then charAt t (stop + 1) else .ok none

/-- Puts a text in the place of the group. -/
def replaced (site : Site) (replacement : Text) : Text := site.before ++ replacement ++ site.after

end Site

/-- `*` next to a digit. -/
def timesBeside (neighbour : Option Char) : Text := if neighbour.any isDigitLike then ['*'] else []

namespace Eval

variable {σ : Type} {stack : Stack}

def ofExcept {α : Type} : Except Fault α → Eval σ α stack
  | .ok a => return a
  | .error fault => throw fault.onStack

/-- Enters a problem and leaves the text as it is. -/
def refuseAt (site : Site) (p : Problem) : Eval σ Text stack := do
  enter p
  return site.whole

/-- Writes the value of a group in its place. -/
def insertValue (site : Site) (fragment : Text) (value : Float) : Eval σ Text stack := do
  let left ← ofExcept site.leftNeighbour
  let right ← ofExcept site.rightNeighbour
  note (.groupValue fragment value)
  return site.replaced (timesBeside left ++ literalText value ++ timesBeside right)

/-- Folds the group with the contents `inner` into the text around it. -/
def foldGroup (recur : Recur σ stack) (site : Site) (inner : Text) : Eval σ Text stack :=
  let fragment := '(' :: inner ++ [')']
  let arguments := splitTopLevel (· == ',') inner
  if inner.isEmpty then refuseAt site (.emptyGroup site.whole)
  else if 1 < arguments.length then
    if arguments.any List.isEmpty then refuseAt site (.malformedGroup fragment)
    else do
      let replacement := '[' :: Text.join [';'] arguments ++ [']']
      note (.argumentList fragment replacement)
      return site.replaced replacement
  else do
    let value ← recur .whole inner
    if ← failed then return site.whole
    else if !value.isFinite then refuseAt site (.tooLarge fragment)
    else insertValue site fragment value

/-- What is before the first `)`, and what is after it. -/
def splitAtCloser (t : Text) : Option (Text × Text) :=
  match t.dropWhile (· != ')') with
  | _ :: after => some (t.takeWhile (· != ')'), after)
  | [] => none

/-- What is before the last `(`, and what is after it. -/
def splitAtLastOpener (t : Text) : Option (Text × Text) :=
  match t.reverse.dropWhile (· != '(') with
  | _ :: before => some (before.reverse, (t.reverse.takeWhile (· != '(')).reverse)
  | [] => none

/-- Folds groups, innermost first, until none is left or a problem is entered. -/
def foldGroups (recur : Recur σ stack) : Nat → Text → Eval σ Text stack
  | 0, t => return t
  | rounds + 1, t => do
    if ← failed then return t
    else match splitAtCloser t with
      | none => return t
      | some (head, after) => match splitAtLastOpener head with
        | none => do
          enter (.unbalancedParentheses t)
          return t
        | some (before, inner) => do
          let folded ← foldGroup recur (.between before inner after) inner
          foldGroups recur rounds folded

/-- Folds all groups of a text whose brackets of both kinds are equal in number. -/
def resolveGroups (recur : Recur σ stack) (t : Text) : Eval σ Text stack := do
  let uneven := t.count '(' != t.count ')'
  let unevenSquare := t.count '[' != t.count ']'
  if uneven then enter (.unbalancedParentheses t)
  if unevenSquare then enter (.unbalancedBrackets t)
  if uneven || unevenSquare then return t else foldGroups recur (t.count ')') t

end Eval

end Reckoner

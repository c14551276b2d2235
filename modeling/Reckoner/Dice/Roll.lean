import Reckoner.Evaluation.Basic

/-!
# Rolling dice

The number of dice and the number of faces are rounded to whole numbers and checked
before anything is drawn; both problems are entered if there are two. All dice of a
roll are drawn and counted. How many of them its line shows is decided afterwards,
from the values alone, by two budgets: the length of the line and the number of
dice that all lines together may show.
-/

namespace Reckoner

/-- The values that the budgets let a roll line show, when the lines so far show
`shown` dice and this one has reached `length` characters. Nothing is shown after
the first value that does not fit. -/
def affordable (limits : Limits) : Nat → Nat → List Nat → List Nat
  | _, _, [] => []
  | shown, length, value :: rest =>
    let longer := length + (natText value).length + 2
    if limits.shownDice ≤ shown ∨ limits.rollLineLength < longer then []
    else value :: affordable limits (shown + 1) longer rest

/-- What is shown is the start of what was drawn. -/
theorem affordable_isPrefix (limits : Limits) (shown length : Nat) (values : List Nat) :
    affordable limits shown length values <+: values := by
  induction values generalizing shown length with
  | nil => simp [affordable]
  | cons value rest ih =>
    simp only [affordable]
    split
    · exact List.nil_prefix
    · exact (List.prefix_cons_inj value).mpr (ih ..)

/-- The dice that a line shows keep to the number that all lines may show. -/
theorem shown_add_length_affordable_le (limits : Limits) (shown length : Nat) (values : List Nat) :
    ((shown + (affordable limits shown length values).length : Nat) : Int) ≤
      max (shown : Int) limits.shownDice := by
  induction values generalizing shown length with
  | nil => simp only [affordable, List.length_nil]; omega
  | cons value rest ih =>
    simp only [affordable]
    split
    · simp only [List.length_nil]; omega
    · next h =>
      have := ih (shown + 1) (length + (natText value).length + 2)
      simp only [List.length_cons]
      omega

/-- Only the two budgets decide what is shown. -/
theorem affordable_congr {limits limits' : Limits}
    (hlength : limits'.rollLineLength = limits.rollLineLength)
    (hdice : limits'.shownDice = limits.shownDice) (shown length : Nat) (values : List Nat) :
    affordable limits' shown length values = affordable limits shown length values := by
  induction values generalizing shown length with
  | nil => rfl
  | cons value rest ih =>
    rw [affordable, affordable, hlength, hdice, ih]

/-- The number of dice, unless there are too many. -/
def diceCount (limits : Limits) (count : Float) : Except Problem Int :=
  match roundToInt? count with
  | some n => if limits.maxDice < n.natAbs then .error (.tooManyDice count limits.maxDice) else .ok n
  | none => .error (.tooManyDice count limits.maxDice)

/-- The number of faces, unless there is none. -/
def faceCount (sides : Float) : Except Problem Nat :=
  match roundToInt? sides with
  | some n => if n < 1 then .error (.noFaces sides) else .ok n.toNat
  | none => .error (.noFaces sides)

namespace Eval

variable {σ : Type} {stack : Stack}

/-- Draws the dice, enters their line, and gives the total, which is negated for a
negative number of dice. The line is entered even if the total is too large. -/
def rollDice (setting : Setting σ) (count : Int) (faces : Nat) : Eval σ Float stack := do
  let s ← get
  let (drawn, dice) := setting.source.drawMany faces count.natAbs s.dice
  let shown := affordable setting.limits s.ledger.shown (rollHead count faces).length drawn
  let total := signedInt (count < 0) (drawn.foldl (· + ·) 0)
  let line := RollLine.rolled count faces shown (shown.length < drawn.length) total
  let ledger := { s.ledger.add (.roll line) with shown := s.ledger.shown + shown.length }
  set ({ s with ledger, dice } : Progress σ stack)
  match intToDouble? total with
  | some value => return value
  | none => throw .totalTooLarge

/-- Enters the problem of a check that failed. -/
def enterError {α : Type} : Except Problem α → Eval σ Unit stack
  | .error p => enter p
  | .ok _ => pure ()

/-- Rolls `count` dice with `sides` faces each. -/
def roll (setting : Setting σ) (count sides : Float) : Eval σ Float stack :=
  match diceCount setting.limits count, faceCount sides with
  | .ok n, .ok faces => rollDice setting n faces
  | badCount, badFaces => do
    enterError badCount
    enterError badFaces
    return 1.0

end Eval

end Reckoner

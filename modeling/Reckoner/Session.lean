import Reckoner.Report

/-!
# Sessions

A session is one evaluation that is driven from outside, call by call: entries are
made by hand, operators applied and texts evaluated, all on one ledger, one source
of dice and one stack. A call that ends in a fault keeps what it did before, and the
session goes on. Here nothing catches the stack running out.
-/

namespace Reckoner

inductive Call where
  | fail (kind message : String)
  | note (message : String) (fragment : Text)
  | addRoll (line : String)
  | setValue (value : Float)
  | outcome
  | message
  | kinds
  | report (verbose : Bool)
  | divide (left right : Float) (fragment : Text)
  | modulo (left right : Float) (fragment : Text)
  | power (left right : Float) (fragment : Text)
  | factorial (value : Float)
  | roll (count sides : Float)
  | evaluate (expression : Text)
  | simplify (expression : Text) (start stop : Int) (inner : Text)

/-- What a call gives back. -/
inductive Reply where
  | nothing
  | number (value : Float)
  | text (text : String)
  | outcome (outcome : Outcome)
  | kinds (kinds : List ProblemKind)

structure Session (σ : Type) (stack : Stack := .ample) where
  expression : Text
  value : Float := 0.0
  progress : Progress σ stack

namespace Session

variable {σ : Type} {stack : Stack}

/-- A session before its first call. -/
def start (expression : Text) (dice : σ) : Session σ stack := { expression, progress := { dice } }

/-- The evaluation as it stands. -/
def evaluation (s : Session σ stack) : Evaluation :=
  { expression := s.expression, value := s.value, ledger := s.progress.ledger }

/-- Answers a call by a step of an evaluation. -/
def perform {α : Type} (s : Session σ stack) (reply : α → Reply) (step : Eval σ α stack) :
    Except (Fault stack) Reply × Session σ stack :=
  match step s.progress with
  | .ok value progress => (.ok (reply value), { s with progress })
  | .error fault progress => (.error fault, { s with progress })

/-- Enters a problem whose category is given by name. -/
def stateProblem (kind message : String) : Eval σ Unit stack :=
  match ProblemKind.ofName? kind with
  | some kind => Eval.enter (.stated kind message)
  | none => throw .noSuchKind

/-- Answers one call. -/
def step (setting : Setting σ) (s : Session σ stack) :
    Call → Except (Fault stack) Reply × Session σ stack
  | .fail kind message => s.perform (fun _ => .nothing) (stateProblem kind message)
  | .note message fragment =>
    s.perform (fun _ => .nothing) (Eval.note (.stated message fragment))
  | .addRoll line =>
    s.perform (fun _ => .nothing)
      (modify fun p => { p with ledger := p.ledger.add (.roll (.stated line)) })
  | .setValue value => (.ok .nothing, { s with value })
  | .outcome => (.ok (.outcome s.evaluation.outcome), s)
  | .message => (.ok (.text s.progress.ledger.message), s)
  | .kinds => (.ok (.kinds (s.progress.ledger.problems.map Problem.kind)), s)
  | .report verbose => (.ok (.text (s.evaluation.report verbose)), s)
  | .divide left right fragment => s.perform .number (Eval.divide left right fragment)
  | .modulo left right fragment => s.perform .number (Eval.modulo left right fragment)
  | .power left right fragment => s.perform .number (Eval.raise left right fragment)
  | .factorial value => s.perform .number (Eval.factorial value)
  | .roll count sides => s.perform .number (Eval.roll setting count sides)
  | .evaluate expression => s.perform .number (Eval.evaluate setting expression)
  | .simplify expression start stop inner =>
    s.perform (fun t => .text t.toString) (Eval.simplify setting expression start stop inner)

end Session

end Reckoner

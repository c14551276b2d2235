import Reckoner.CommandLine
import Reckoner.Report

/-!
# Running a command line

With an expression on the command line the program reports on it and is done; its
exit code tells whether the evaluation failed. Without one it converses: one
expression a line, until it is told to leave or there are no more lines. Only the
dice carry over from one line to the next. Where the lines come from and the reports go
to is left open (`Outlet`), so the program runs the same loop that transcripts are made by.
-/

namespace Reckoner

/-- What a line of the conversation asks for. -/
inductive Query where
  | nothing
  | leave
  | evaluate (expression : Text)
deriving DecidableEq, Repr

/-- The words that end the conversation, in any case. -/
def leavingWords : List String := ["exit", "quit"]

def Query.ofLine (line : Text) : Query :=
  let t := line.strip
  if leavingWords.any (·.toList == t.lowered) then leave
  else if t.isEmpty then nothing
  else evaluate t

/-- What becomes of a line. -/
inductive Response (σ : Type) where
  | silence
  | leave
  /-- An evaluation to report on, and the dice after it. -/
  | report (evaluation : Evaluation) (dice : σ)

variable {σ : Type}

/-- Answers one line. -/
def respond (setting : Setting σ) (dice : σ) (line : Text) (stack : Stack := .ample) :
    Except Fault (Response σ) :=
  match Query.ofLine line with
  | .nothing => .ok .silence
  | .leave => .ok .leave
  | .evaluate expression =>
    (evaluateExpression setting dice expression stack).map fun (evaluation, dice) =>
      .report evaluation dice

section Loop

variable {m : Type → Type} [Monad m] [MonadExceptOf Fault m] {ρ : Type} [ForIn m ρ Text]

/-- Answers lines in turn, up to the one that ends the conversation: each evaluation is told of.
The dice afterwards are given back. -/
def converse (setting : Setting σ) (tell : Evaluation → m Unit) (dice : σ) (lines : ρ)
    (stack : Stack := .ample) : m σ :=
  forIn lines dice fun line dice =>
    match respond setting dice line stack with
    | .error fault => throw fault
    | .ok .silence => return .yield dice
    | .ok .leave => return .done dice
    | .ok (.report evaluation dice) => do
      tell evaluation
      return .yield dice

/-- Where a run leaves what it has to say. -/
structure Outlet (m : Type → Type) where
  /-- Prints an item, on lines of its own. -/
  print : String → m Unit
  /-- Keeps a record of an evaluation. -/
  keep : Evaluation → m Unit

/-- Tells of an evaluation. -/
def Outlet.tell (outlet : Outlet m) (verbose : Bool) (evaluation : Evaluation) : m Unit := do
  outlet.keep evaluation
  outlet.print (evaluation.report verbose)

/-- What the conversation starts with. -/
def greeting : String := "Enter an expression, or 'exit' to quit."

/-- Zero, or one for an evaluation that failed. -/
def Evaluation.exitCode (e : Evaluation) : Nat := if e.failed then 1 else 0

/-- Carries out a request on the given dice and lines of input, and gives the exit code and the
dice afterwards. The words of a request are evaluated as one expression. -/
def Request.carryOut (request : Request) (setting : Setting σ) (outlet : Outlet m) (dice : σ)
    (lines : ρ) (stack : Stack := .ample) : m (Nat × σ) := do
  if request.words.isEmpty then
    outlet.print greeting
    let dice ← converse setting (outlet.tell request.verbose) dice lines stack
    return (0, dice)
  else
    match evaluateExpression setting dice (Text.join [' '] request.words) stack with
    | .error fault => throw fault
    | .ok (evaluation, dice) =>
      outlet.tell request.verbose evaluation
      return (evaluation.exitCode, dice)

end Loop

/-- The exit code and the printed lines of a run, and the dice that it leaves. -/
structure Transcript (σ : Type) where
  exitCode : Nat
  printed : List String
  dice : σ
deriving DecidableEq, Repr

/-- The printed text: every item on lines of its own. -/
def Transcript.text (t : Transcript σ) : String :=
  String.join (t.printed.map (· ++ "\n"))

/-- A short account of the options. -/
def usage : String :=
  "usage: [-h] [-v] [--seed SEED] [--log-level LEVEL] [--no-log-file] [expression ...]"

/-- An outlet that keeps the printed items, and no records. -/
def Outlet.printed : Outlet (StateT (List String) (Except Fault)) where
  print item := modify (· ++ [item])
  keep _ := pure ()

/-- The transcript of a request that is carried out on the given dice and lines of input. -/
def Request.transcript (request : Request) (setting : Setting σ) (dice : σ)
    (input : List Text) (stack : Stack := .ample) : Except Fault (Transcript σ) := do
  let ((exitCode, dice), printed) ← (request.carryOut setting .printed dice input stack).run []
  return { exitCode, printed, dice }

/-- What ends a run without an answer. -/
inductive RunFault where
  | evaluation (fault : Fault)
  /-- The dice are to be seeded, but not with any number. -/
  | noSeed
deriving DecidableEq, Repr

/-- Runs what the command line asks for. -/
def Invocation.transcript (invocation : Invocation) (setting : Setting σ) (dice : σ)
    (input : List Text) (stack : Stack := .ample) : Except RunFault (Transcript σ) :=
  match invocation with
  | .refused => .ok { exitCode := 2, printed := [], dice }
  | .help => .ok { exitCode := 0, printed := [usage], dice }
  | .run request =>
    if request.seed == .dropped then .error .noSeed
    else (request.transcript setting dice input stack).mapError .evaluation

end Reckoner

import Reckoner.Evaluation
import Reckoner.Text.Upper

/-!
# Notices

What the program tells about itself, apart from its reports, comes as notices of
some severity. A level is asked for by name; notices below it are dropped.
-/

namespace Reckoner

/-- How serious a notice is; the usual ranks have names. -/
structure Severity where
  rank : Int
deriving DecidableEq, Repr

namespace Severity

def unset : Severity := { rank := 0 }
def debug : Severity := { rank := 10 }
def info : Severity := { rank := 20 }
def warning : Severity := { rank := 30 }
def error : Severity := { rank := 40 }
def critical : Severity := { rank := 50 }

/-- The names that a level can be asked for by; the last two are second names. -/
def named : List (String × Severity) :=
  [("NOTSET", unset), ("DEBUG", debug), ("INFO", info), ("WARNING", warning), ("ERROR", error),
   ("CRITICAL", critical), ("WARN", warning), ("FATAL", critical)]

def name (s : Severity) : String :=
  match named.find? fun entry => entry.2 == s with
  | some (name, _) => name
  | none => s!"Level {s.rank}"

/-- A name that stands beside those of the levels but belongs to something else. -/
inductive TakenName where
  /-- The layout of a plain line. -/
  | plainLayout
  /-- The table of all layouts. -/
  | layoutTable
deriving DecidableEq, Repr

def taken : List (String × TakenName) :=
  [("BASIC_FORMAT", .plainLayout), ("_STYLES", .layoutTable)]

/-- The level asked for by name, in any case. For a name that there is not it is that of
warnings; a name that is taken is refused. -/
def ofRequest (request : Text) : Except TakenName Severity :=
  let asked := request.upper
  match taken.find? fun entry => entry.1.toList == asked with
  | some (_, name) => .error name
  | none => match named.find? fun entry => entry.1.toList == asked with
    | some (_, severity) => .ok severity
    | none => .ok warning

end Severity

/-- Something to be told. -/
structure Notice where
  severity : Severity
  message : String
deriving DecidableEq, Repr

/-- What is told about a finished evaluation. -/
def Evaluation.notice (e : Evaluation) : Notice :=
  let expression := e.expression.quoted
  if e.failed then
    { severity := .warning
      message := s!"Handled error in calculator for query {expression}: {e.ledger.message}" }
  else
    { severity := .debug
      message := s!"Evaluated {expression} = {(shortestText e.value).toString}" }

end Reckoner

import Reckoner.Console
import Std.Time.DateTime.Timestamp

/-!
# The program

Reads settings from the environment, an expression from the command line or one
expression a line from standard input, and prints reports. What it decides is
decided elsewhere; here are the clock, the streams and the file of the journal.
-/

namespace Reckoner

/-- The variables that settings are read from. -/
def settingNames : List String :=
  ["CALC_MAX_DICE", "CALC_ROLL_TRACE_CHARS", "CALC_ROLL_TRACE_DICE", "CALC_MAX_DEPTH",
   "CALC_MAX_LENGTH", "CALC_LOG_LEVEL"]

/-- The value of a name in a list of pairs. -/
def lookupIn (pairs : List (String × String)) (name : String) : Option Text :=
  (pairs.find? (·.1 == name)).map (·.2.toList)

/-- The variables that are set. -/
def readEnvironment : IO (List (String × String)) :=
  settingNames.filterMapM fun name => return (← IO.getEnv name).map fun value => (name, value)

/-- The file of the journal, in the working directory. -/
def journalFile : String := "reckoner.log"

/-- Writes a notice to the journal. -/
def record (journal : Journal) (notice : Notice) : IO Unit := do
  let now ← Std.Time.Timestamp.now
  let entry : JournalEntry := {
    origin := "reckoner", notice, file := "Main.lean", function := "record", line := 0
    seconds := now.toSecondsSinceUnixEpoch.val
    milliseconds := now.toMillisecondsSinceUnixEpoch.val % 1000 }
  IO.eprint (journal.terminalText [entry])
  match journal.fileText? [entry] with
  | some text =>
    let handle ← IO.FS.Handle.mk journalFile .append
    handle.putStr text
  | none => return

/-- The dice of a run: seeded by the command line, or else by the clock. -/
def chooseDice (seed : Seed) : IO Feed := do
  match seed with
  | .number seed => return .congruential (UInt64.ofInt seed)
  | _ => return .congruential (UInt64.ofNat (← IO.monoNanosNow))

/-- Says that a roll went beyond all doubles. -/
def reportFault : IO UInt32 := do
  IO.eprintln "The total of a roll is too large."
  return 1

/-- The lines of a stream, up to its end. -/
structure InputLines where
  stream : IO.FS.Stream

instance {m : Type → Type} [Monad m] [MonadLiftT IO m] : ForIn m InputLines Text where
  forIn input start step := do
    let mut state := start
    repeat
      let line ← input.stream.getLine
      if line.isEmpty then break
      match ← step line.toList state with
      | .done last => return last
      | .yield next => state := next
    return state

/-- An outlet to the terminal and the journal. -/
def Outlet.terminal (journal : Journal) : Outlet (ExceptT Fault IO) where
  print item := IO.println item
  keep evaluation := record journal evaluation.notice

/-- Carries out a request. -/
def carryOut (settings : Settings) (request : Request) (journal : Journal) : IO UInt32 := do
  let setting : Setting Feed := { source := Feed.source, limits := settings.limits }
  let dice ← chooseDice request.seed
  let input : InputLines := { stream := ← IO.getStdin }
  match ← (request.carryOut setting (Outlet.terminal journal) dice input).run with
  | .ok (exitCode, _) => return UInt32.ofNat exitCode
  | .error _ => reportFault

end Reckoner

open Reckoner

def main (arguments : List String) : IO UInt32 := do
  match Settings.read (lookupIn (← readEnvironment)) with
  | .error _ =>
    IO.eprintln "A setting has characters in it that are no decimal digits."
    return 1
  | .ok settings =>
    for notice in settings.notices do
      IO.eprintln s!"{notice.severity.name}: {notice.message}"
    match Invocation.ofTexts (arguments.map String.toList) with
    | .run request =>
      let level := request.logLevel.getD settings.value.logLevel
      match Journal.opened (some level) request.logFile with
      | .error _ =>
        IO.eprintln "The level of the journal has a name that is no level's."
        return 1
      | .ok journal =>
        if request.seed == .dropped then
          IO.eprintln "The dice cannot be seeded without a number."
          return 1
        else carryOut settings.value request journal
    | .help =>
      IO.println usage
      return 0
    | .refused =>
      IO.eprintln usage
      return 2

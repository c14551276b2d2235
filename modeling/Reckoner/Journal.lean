import Reckoner.Journal.Date
import Reckoner.Journal.Notice

/-!
# The journal

A journal has a level and writes the entries that reach it: to the terminal, in
colours that go with the severity, and to a file if it has one.
-/

namespace Reckoner

/-- A notice with its time and place. -/
structure JournalEntry where
  origin : String
  notice : Notice
  file : String
  function : String
  line : Int
  /-- Seconds since the start of 1970. -/
  seconds : Int
  milliseconds : Int

namespace JournalEntry

def timestamp (e : JournalEntry) : String :=
  s!"{Date.timeText e.seconds},{padded 3 e.milliseconds}"

/-- What both layouts of a line start with. -/
def head (e : JournalEntry) : String :=
  s!"{e.timestamp} - {e.origin} - {e.notice.severity.name} - "

/-- The colour of a severity that has one. -/
def colour? (s : Severity) : Option String :=
  if s == .debug || s == .info then some "\x1b[38;20m"
  else if s == .warning then some "\x1b[33;20m"
  else if s == .error then some "\x1b[31;20m"
  else if s == .critical then some "\x1b[31;1m"
  else none

def resetColour : String := "\x1b[0m"

/-- The line for the terminal. Without a colour it is the bare message. -/
def terminalLine (e : JournalEntry) : String :=
  match colour? e.notice.severity with
  | some colour =>
    s!"{colour}{e.head}{e.notice.message} ({e.file}:{e.line}){resetColour}\n"
  | none => s!"{e.notice.message}\n"

/-- The line for the file. -/
def fileLine (e : JournalEntry) : String :=
  s!"{e.head}[{e.file}:{e.function}:{e.line}] - {e.notice.message}\n"

end JournalEntry

/-- Where entries go. -/
inductive Destination where
  | terminal
  | file
deriving DecidableEq, Repr

structure Journal where
  level : Severity
  hasFile : Bool

namespace Journal

/-- The level that is asked for when nothing is. -/
def usualRequest : Text := "WARNING".toList

/-- Opens a journal at a level asked for by name; an empty name asks for nothing. -/
def opened (request : Option Text) (hasFile : Bool) : Except Severity.TakenName Journal :=
  let request := match request with
    | some (c :: rest) => c :: rest
    | _ => usualRequest
  (Severity.ofRequest request).map fun level => { level, hasFile }

def destinations (j : Journal) : List Destination :=
  .terminal :: (if j.hasFile then [.file] else [])

/-- Whether a severity reaches the level. -/
def keeps (j : Journal) (s : Severity) : Bool := j.level.rank ≤ s.rank

/-- Opening a journal is itself told, at the severity of debugging. -/
def announcesItself (j : Journal) : Bool := j.keeps .debug

/-- The entries that reach the level. -/
def kept (j : Journal) (entries : List JournalEntry) : List JournalEntry :=
  entries.filter fun e => j.keeps e.notice.severity

def terminalText (j : Journal) (entries : List JournalEntry) : String :=
  String.join ((j.kept entries).map JournalEntry.terminalLine)

def fileText? (j : Journal) (entries : List JournalEntry) : Option String :=
  if j.hasFile then some (String.join ((j.kept entries).map JournalEntry.fileLine)) else none

end Journal

end Reckoner

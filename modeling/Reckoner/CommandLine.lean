import Reckoner.Settings

/-!
# The command line

The words of a command line are first told apart: options, which start with `-`, and
the words of an expression. A long option may be cut short as long as it can be told
from the others, and may have its value after `=`; short options may share one word.
A negative number is a word of the expression, and so is everything after the first
`--`. The words of the expression stand together, in one run. Where `--` is itself the
value of an option it is dropped, which leaves the option without a value.
-/

namespace Reckoner

/-! ## Options -/

inductive OptionName where
  | help
  | verbose
  | seed
  | logLevel
  | noLogFile
deriving DecidableEq, Repr

namespace OptionName

/-- The long names. -/
def long : List (String × OptionName) :=
  [("--help", help), ("--verbose", verbose), ("--seed", seed), ("--log-level", logLevel),
   ("--no-log-file", noLogFile)]

/-- The letters of the short names. -/
def ofLetter? : Char → Option OptionName
  | 'h' => some help
  | 'v' => some verbose
  | _ => none

/-- The option with exactly this long name. -/
def ofName? (t : Text) : Option OptionName :=
  (long.find? fun entry => entry.1.toList == t).map (·.2)

/-- The options whose long name starts so. -/
def startingWith (t : Text) : List OptionName :=
  (long.filter fun entry => t.isPrefixOf entry.1.toList).map (·.2)

def takesValue : OptionName → Bool
  | seed | logLevel => true
  | _ => false

end OptionName

/-! ## Words -/

/-- What a word of the command line is. -/
inductive Word where
  | plain (t : Text)
  /-- The first `--`. -/
  | divider
  /-- An option, with the value after `=` if there is one. -/
  | option (name : OptionName) (value : Option Text)
  /-- A short option and what follows it in the word: more letters of short options.
  There is at least one. -/
  | cluster (first : OptionName) (tail : Text)
  /-- It starts like an option, but there is none that fits. -/
  | unknown
  /-- It is short for more than one option. -/
  | ambiguous
deriving DecidableEq, Repr

/-- Divides a text at the first `=`. -/
def splitAtEquals (t : Text) : Text × Option Text :=
  match t.dropWhile (· != '=') with
  | _ :: value => (t.takeWhile (· != '='), some value)
  | [] => (t, none)

/-- Whether a text is `-` and a plain decimal number; a line feed may end it. -/
def isNegativeNumber (t : Text) : Bool :=
  let body := if t.getLast? == some '\n' then t.dropLast else t
  match body with
  | '-' :: digits =>
    match digits.dropWhile isDecimalDigit with
    | [] => !digits.isEmpty
    | '.' :: places => !places.isEmpty && places.all isDecimalDigit
    | _ => false
  | _ => false

namespace Word

/-- What a word is that starts like an option and is no option's name. -/
def ofUnnamed (t : Text) : Word :=
  if isNegativeNumber t || t.contains ' ' then plain t else unknown

/-- What a word is that starts with `--` and is no option's full name. -/
def ofLong (t : Text) : Word :=
  let (front, value) := splitAtEquals t
  match OptionName.startingWith front with
  | [] => ofUnnamed t
  | [name] => option name value
  | _ => ambiguous

/-- What a word is that starts with a single `-` and a letter. One `=` may stand between
the first letter and the others. -/
def ofShort (letter : Char) (rest t : Text) : Word :=
  match OptionName.ofLetter? letter, rest with
  | some name, [] => option name none
  | some first, '=' :: tail => cluster first tail
  | some first, tail => cluster first tail
  | none, _ => ofUnnamed t

/-- What a word is that stands before any `--`. -/
def ofText (t : Text) : Word :=
  match t with
  | '-' :: '-' :: _ =>
    match OptionName.ofName? t with
    | some name => option name none
    | none => ofLong t
  | '-' :: letter :: rest => ofShort letter rest t
  | _ => plain t

/-- Tells the words of a command line apart. -/
def ofTexts : List Text → List Word
  | [] => []
  | t :: rest =>
    if t == ['-', '-'] then divider :: rest.map plain else ofText t :: ofTexts rest

end Word

/-! ## Options and expression -/

/-- What the dice are to be seeded with. -/
inductive Seed where
  | unset
  | number (n : Int)
  /-- The option is there, but its value has been dropped. -/
  | dropped
deriving DecidableEq, Repr

/-- What the command line asks for. -/
structure Request where
  verbose : Bool := false
  seed : Seed := .unset
  logLevel : Option Text := none
  logFile : Bool := true
  /-- The words of the expression. -/
  words : List Text := []
deriving DecidableEq, Repr

/-- What becomes of a command line. -/
inductive Invocation where
  | run (request : Request)
  | help
  | refused
deriving DecidableEq, Repr

/-- The levels that the command line can ask for. -/
def levelChoices : List String := ["DEBUG", "INFO", "WARNING", "ERROR", "CRITICAL"]

/-- Takes single underscores out from between digits; no others may be there. -/
def joinDigits : Text → Option Text
  | [] => none
  | [c] => if isDecimalDigit c then some [c] else none
  | c :: '_' :: rest => if isDecimalDigit c then (joinDigits rest).map (c :: ·) else none
  | c :: rest => if isDecimalDigit c then (joinDigits rest).map (c :: ·) else none

/-- Reads a whole number with an optional sign; blanks around it do not count. -/
def readInteger (t : Text) : Option Int :=
  let t := t.trim isMargin
  let (negative, digits) := match t with
    | '-' :: rest => (true, rest)
    | '+' :: rest => (false, rest)
    | _ => (false, t)
  match joinDigits digits with
  | some digits =>
    if mostDigits < digits.length then none else some (signedInt negative (digitsValue digits))
  | none => none

/-- The run of expression words. -/
inductive Run where
  | awaited
  | underWay
  | ended
deriving DecidableEq, Repr

/-- How far the reading of a command line has come. -/
structure Reading where
  request : Request := {}
  /-- The option that the next word is the value of. -/
  pending : Option OptionName := none
  run : Run := .awaited
  /-- Whether a word has been met that has no place. -/
  hasStray : Bool := false

namespace Reading

def changeRequest (r : Reading) (change : Request → Request) : Reading :=
  { r with request := change r.request }

/-- Sets an option that takes no value. -/
def setFlag (r : Reading) : OptionName → Reading
  | .verbose => r.changeRequest fun q => { q with verbose := true }
  | .noLogFile => r.changeRequest fun q => { q with logFile := false }
  | _ => r

/-- Gives an option its value; one that will not do refuses the command line. Without
its value, the level of the journal is as if it had not been asked for. -/
def setValue (r : Reading) (name : OptionName) (value : Text) : Except Invocation Reading :=
  let r := { r with pending := none }
  let isDropped := value == ['-', '-']
  match name with
  | .seed =>
    if isDropped then .ok (r.changeRequest fun q => { q with seed := .dropped })
    else match readInteger value with
      | some seed => .ok (r.changeRequest fun q => { q with seed := .number seed })
      | none => .error .refused
  | .logLevel =>
    let level := value.upper
    if isDropped then .ok (r.changeRequest fun q => { q with logLevel := none })
    else if levelChoices.any (·.toList == level) then
      .ok (r.changeRequest fun q => { q with logLevel := some level })
    else .error .refused
  | _ => .error .refused

/-- Adds words to the run, unless it is over already. -/
def addWords (r : Reading) (texts : List Text) : Reading :=
  if r.run == .ended then { r with hasStray := true }
  else { r.changeRequest fun q => { q with words := q.words ++ texts } with run := .underWay }

/-- An option ends the run. -/
def endRun (r : Reading) : Reading := if r.run == .underWay then { r with run := .ended } else r

/-- Takes the short options of one word, of which help ends the reading. Every letter
has to be one, and nothing is taken otherwise. -/
def addCluster (r : Reading) (first : OptionName) (tail : Text) : Except Invocation Reading :=
  match tail.mapM OptionName.ofLetter? with
  | none | some [] => .error .refused
  | some names =>
    let names := first :: names
    if names.contains .help then .error .help else .ok (names.foldl setFlag r)

/-- Takes an option with the value in its own word, if there is one. -/
def addOption (r : Reading) (name : OptionName) (value : Option Text) :
    Except Invocation Reading :=
  match value with
  | some value => r.setValue name value
  | none =>
    if name.takesValue then .ok { r with pending := some name }
    else if name == .help then .error .help
    else .ok (r.setFlag name)

/-- Takes the next word. Asking for help ends the reading, and so does an option that
is wrong; words without a place only count at the end. -/
def step (r : Reading) (word : Word) : Except Invocation Reading :=
  match r.pending, word with
  | some name, .plain value => r.setValue name value
  | some _, _ => .error .refused
  | none, .plain t => .ok (r.addWords [t])
  | none, .divider => .ok (r.addWords [])
  | none, .option name value => r.endRun.addOption name value
  | none, .cluster first tail => r.endRun.addCluster first tail
  | none, .unknown => .ok { r.endRun with hasStray := true }
  | none, .ambiguous => .error .refused

/-- What the end of the command line makes of the reading. -/
def finish (r : Reading) : Invocation :=
  if r.pending.isSome || r.hasStray then .refused else .run r.request

end Reading

/-- Reads a command line from left to right. A word that is short for several options
refuses it as a whole. -/
def Invocation.ofTexts (texts : List Text) : Invocation :=
  let words := Word.ofTexts texts
  if words.contains .ambiguous then .refused
  else match words.foldlM Reading.step {} with
    | .ok reading => reading.finish
    | .error invocation => invocation

end Reckoner

import Reckoner.Journal

/-!
# Settings

Settings are read from named variables. One that is not set, or blank, has its
default without a word; one that is no positive number has it with a warning. What
looks like digits is taken to be a number, and only then turns out not to be one if
a character in it is no decimal digit; that is a fault and ends the reading.
-/

namespace Reckoner

/-- Why the reading of settings ends. -/
inductive SettingFault where
  /-- A setting has characters that look like digits and are none. -/
  | notDecimal (text : Text)
  /-- A setting has more decimal digits than are read. -/
  | tooManyDigits (count : Nat)
deriving DecidableEq, Repr

/-- A value with the notices about it. -/
structure Noticed (α : Type) where
  value : α
  notices : List Notice := []

/-- The most digits that a whole number is read from. -/
def mostDigits : Nat := 4300

/-- Reads a text of digit-like characters as a whole number. -/
def readDigits (t : Text) : Except SettingFault Nat :=
  let run := (t.takeWhile isDecimalDigit).length
  if mostDigits < run then .error (.tooManyDigits run)
  else if t.all isDecimalDigit then .ok (digitsValue t)
  else .error (.notDecimal t)

/-- The default, with a warning about the text in its place. -/
def ignoring (name : String) (default : Int) (t : Text) : Noticed Int :=
  { value := default
    notices := [{
      severity := .warning
      message := s!"Ignoring invalid value {t.quoted} for {name}; using {default}." }] }

/-- Reads a positive whole number. Blanks around it and underscores in it do not
count. -/
def readPositive (name : String) (raw : Option Text) (default : Int) :
    Except SettingFault (Noticed Int) :=
  match raw with
  | none => .ok { value := default }
  | some raw =>
    let t := raw.strip
    if t.isEmpty then .ok { value := default }
    else
      let t := t.filter (· != '_')
      if t.isEmpty || !t.all isDigitLike then .ok (ignoring name default t)
      else match readDigits t with
        | .error fault => .error fault
        | .ok n => .ok (if n < 1 then ignoring name default t else { value := n })

/-- Everything that variables can set. -/
structure Settings where
  limits : Limits := {}
  /-- The level asked for, in upper case. -/
  logLevel : Text := Journal.usualRequest

namespace Settings

/-- The level of the journal that a variable asks for. -/
def readLevel (raw : Option Text) : Text := (raw.getD Journal.usualRequest).strip.upper

/-- Reads all settings, in a fixed order. -/
def read (lookup : String → Option Text) : Except SettingFault (Noticed Settings) := do
  let positive (name : String) (default : Int) := readPositive name (lookup name) default
  let standard : Limits := {}
  let dice ← positive "CALC_MAX_DICE" standard.maxDice
  let chars ← positive "CALC_ROLL_TRACE_CHARS" standard.rollLineLength
  let shown ← positive "CALC_ROLL_TRACE_DICE" standard.shownDice
  let depth ← positive "CALC_MAX_DEPTH" standard.maxDepth
  let length ← positive "CALC_MAX_LENGTH" standard.maxLength
  return {
    value := {
      limits := {
        maxDice := dice.value
        rollLineLength := chars.value
        shownDice := shown.value
        maxDepth := depth.value
        maxLength := length.value }
      logLevel := readLevel (lookup "CALC_LOG_LEVEL") }
    notices := dice.notices ++ chars.notices ++ shown.notices ++ depth.notices ++ length.notices }

end Settings

end Reckoner

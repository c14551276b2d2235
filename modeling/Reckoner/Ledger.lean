import Reckoner.Number.Layout

/-!
# The ledger of an evaluation

Nothing stops an evaluation with an exception. What goes wrong, what was worked
out and what was rolled is entered in a ledger; entries are only ever added. A flag of
its own is raised before a problem is entered, and from then on the evaluation has
failed. Problems, steps and rolls are kept as causes and numbers, each with one function
that words it.

Limits stand in messages in full, however many digits they have; that the interpreter
words no whole number of more than 4300 digits is left out here, though settings keep to it.
-/

namespace Reckoner

/-! ## Problems -/

/-- The category of a problem. -/
inductive ProblemKind where
  | form
  | numeral
  | domain
  | arithmetic
deriving DecidableEq, Repr

def ProblemKind.name : ProblemKind → String
  | .form => "syntax"
  | .numeral => "parse"
  | .domain => "domain"
  | .arithmetic => "arithmetic"

def ProblemKind.all : List ProblemKind := [.form, .numeral, .domain, .arithmetic]

def ProblemKind.ofName? (name : String) : Option ProblemKind :=
  ProblemKind.all.find? fun kind => kind.name == name

/-- What can go wrong. -/
inductive Problem where
  | nothingToEvaluate
  | tooLong (length : Nat) (most : Int)
  | tooDeep (most : Int)
  | tooComplex
  | unbalancedParentheses (expression : Text)
  | unbalancedBrackets (expression : Text)
  | emptyGroup (expression : Text)
  | malformedGroup (fragment : Text)
  | factorialOfNothing (expression : Text)
  | missingArgument (function : String) (expression : Text)
  | argumentList (function : String)
  | malformedCall (expression : Text)
  | notANumeral (text : Text)
  | wrongArity (function : String) (arity given : Nat)
  | outsideDomain (function : String) (argument : Float)
  | listOutsideDomain (function : String) (arguments : List Float)
  | tooLarge (fragment : Text)
  | argumentTooLarge (function : String)
  | notRepresentable (function : String) (arguments : List Float)
  | resultTooLarge
  | divisionByZero (fragment : Text)
  | moduloByZero (fragment : Text)
  | noRemainder (fragment : Text)
  | zeroToZero (fragment : Text)
  | noRealValue (fragment : Text)
  | factorialOf (value : Float)
  | factorialTooLarge (n : Int)
  | tooManyDice (count : Float) (most : Int)
  | noFaces (sides : Float)
  /-- A problem stated from outside, in words of its own. -/
  | stated (kind : ProblemKind) (message : String)
deriving DecidableEq

/-- Values as a message lists them. -/
def listed (values : List Float) : Text := Text.join [',', ' '] (values.map displayText)

namespace Problem

def kind : Problem → ProblemKind
  | nothingToEvaluate | tooLong .. | tooDeep .. | tooComplex | unbalancedParentheses ..
  | unbalancedBrackets .. | emptyGroup .. | malformedGroup .. | factorialOfNothing ..
  | missingArgument .. | argumentList .. | malformedCall .. => .form
  | notANumeral .. => .numeral
  | wrongArity .. | outsideDomain .. | listOutsideDomain .. => .domain
  | tooLarge .. | argumentTooLarge .. | notRepresentable .. | resultTooLarge | divisionByZero ..
  | moduloByZero .. | noRemainder .. | zeroToZero .. | noRealValue .. | factorialOf ..
  | factorialTooLarge .. | tooManyDice .. | noFaces .. => .arithmetic
  | stated kind _ => kind

def message : Problem → String
  | nothingToEvaluate => "There is nothing to evaluate."
  | tooLong length most =>
    s!"Expression is too long ({length} characters, the maximum is {most})."
  | tooDeep most => s!"Expression is nested too deeply (the maximum depth is {most})."
  | tooComplex => "Expression is too complex to evaluate."
  | unbalancedParentheses expression => s!"Unbalanced parenthesis in {expression.quoted}."
  | unbalancedBrackets expression => s!"Unbalanced brackets in {expression.quoted}."
  | emptyGroup expression => s!"Empty parenthesis in {expression.quoted}."
  | malformedGroup fragment => s!"Malformed argument list {fragment.quoted}."
  | factorialOfNothing expression =>
    s!"Factorial is missing its operand in {expression.quoted}."
  | missingArgument function expression =>
    s!"Function {function} is missing its argument in {expression.quoted}."
  | argumentList function => s!"Function {function} takes a single argument."
  | malformedCall expression => s!"Malformed argument list in {expression.quoted}."
  | notANumeral text => s!"Unable to parse {text.quoted} as a number."
  | wrongArity function arity given =>
    s!"Function {function} takes exactly {arity} arguments, got {given}."
  | outsideDomain function argument =>
    s!"Value {(displayText argument).toString} not included in the domain of function {function}."
  | listOutsideDomain function arguments =>
    s!"Values ({(listed arguments).toString}) not included in the domain of function {function}."
  | tooLarge fragment => s!"{fragment.quoted} is too large to represent."
  | argumentTooLarge function => s!"The argument of {function} is too large to represent."
  | notRepresentable function arguments =>
    s!"{function}({(listed arguments).toString}) cannot be represented."
  | resultTooLarge => "The result is too large to represent."
  | divisionByZero fragment => s!"Division by zero in {fragment.quoted}."
  | moduloByZero fragment => s!"Modulo by zero in {fragment.quoted}."
  | noRemainder fragment => s!"{fragment.quoted} has no finite remainder."
  | zeroToZero fragment => s!"0^0 is undefined in {fragment.quoted}."
  | noRealValue fragment => s!"{fragment.quoted} has no real value."
  | factorialOf value => s!"Cannot take the factorial of {(shortestText value).toString}."
  | factorialTooLarge n => s!"{n}! is too large to represent (overflow)."
  | tooManyDice count most =>
    s!"Too many dice to roll: {(generalText count).toString} (the maximum is {most})."
  | noFaces sides => s!"A die needs at least one face, got {(generalText sides).toString}."
  | stated _ message => message

end Problem

/-! ## Steps -/

/-- One piece of reasoning, with the part of the expression that it is about. -/
inductive Step where
  /-- A group turned out to be an argument list. -/
  | argumentList (group replacement : Text)
  | groupValue (fragment : Text) (value : Float)
  | binary (left : Float) (symbol : Char) (right result : Float) (fragment : Text)
  | factorial (value result : Float) (fragment : Text)
  | call (function : String) (arguments : List Float) (value : Float) (fragment : Text)
  | constant (name : String) (value : Float) (fragment : Text)
  /-- A step stated from outside, in words of its own. -/
  | stated (message : String) (fragment : Text)
deriving DecidableEq

namespace Step

def fragment : Step → Text
  | argumentList fragment _ => fragment
  | groupValue fragment _ => fragment
  | binary _ _ _ _ fragment => fragment
  | factorial _ _ fragment => fragment
  | call _ _ _ fragment => fragment
  | constant _ _ fragment => fragment
  | stated _ fragment => fragment

def message : Step → String
  | argumentList fragment replacement =>
    s!"Argument list {fragment.toString} -> {replacement.toString}"
  | groupValue fragment value => s!"{fragment.toString} = {(displayText value).toString}"
  | binary left symbol right result _ =>
    let sides := s!"{(displayText left).toString} {symbol} {(displayText right).toString}"
    s!"{sides} = {(displayText result).toString}"
  | factorial value result _ =>
    s!"{(displayText value).toString}! = {(displayText result).toString}"
  | call function arguments value _ =>
    s!"{function}({(listed arguments).toString}) = {(displayText value).toString}"
  | constant name value _ => s!"{name} = {(shortestText value).toString}"
  | stated message _ => message

end Step

/-! ## Roll lines -/

/-- What is told about one roll. -/
inductive RollLine where
  /-- The values shown are the first that were drawn; `cut` if there were more. -/
  | rolled (count : Int) (faces : Int) (shown : List Nat) (cut : Bool) (total : Int)
  /-- A line stated from outside. -/
  | stated (line : String)
deriving DecidableEq

/-- The start of a roll line, up to its first value. A negative count has its sign
before the bracket too. -/
def rollHead (count faces : Int) : Text :=
  intText count ++ 'd' :: intText faces ++ [':', ' '] ++ (if count < 0 then ['-', '['] else ['['])

def RollLine.text : RollLine → Text
  | rolled count faces shown cut total =>
    let values := shown.map natText ++ (if cut then [['.', '.', '.']] else [])
    rollHead count faces ++ Text.join [',', ' '] values ++ [']', ' ', '=', ' '] ++ intText total
  | stated line => line.toList

/-! ## The ledger -/

/-- An entry of the ledger. -/
inductive Event where
  | problem (problem : Problem)
  | step (step : Step)
  | roll (line : RollLine)
deriving DecidableEq

namespace Event

def problem? : Event → Option Problem
  | problem p => some p
  | _ => none

def step? : Event → Option Step
  | step s => some s
  | _ => none

def roll? : Event → Option RollLine
  | roll line => some line
  | _ => none

end Event

@[ext]
structure Ledger where
  /-- The entries in the order they were made. -/
  events : List Event := []
  /-- How many dice the roll lines show. -/
  shown : Nat := 0
  /-- The flag that is raised before a problem is entered. -/
  failed : Bool := false
deriving DecidableEq

namespace Ledger

/-- Raises the flag. -/
def raise (l : Ledger) : Ledger := { l with failed := true }

/-- Adds an entry, and leaves the flag as it is. -/
def add (l : Ledger) (e : Event) : Ledger := { l with events := l.events ++ [e] }

def problems (l : Ledger) : List Problem := l.events.filterMap Event.problem?

def steps (l : Ledger) : List Step := l.events.filterMap Event.step?

def rolls (l : Ledger) : List RollLine := l.events.filterMap Event.roll?

/-- The roll lines as one text. Empty lines before the first line with text in it
leave no trace. -/
def rollText (l : Ledger) : Text :=
  Text.join ['\n'] ((l.rolls.map RollLine.text).dropWhile List.isEmpty)

def messages (l : Ledger) : List String := l.problems.map Problem.message

/-- All messages, one after the other on lines of their own. -/
def message (l : Ledger) : String := "\n".intercalate l.messages

end Ledger

end Reckoner

import Reckoner.Evaluation.Tier
import Reckoner.Number.Numeral

/-!
# Factorials, functions, constants and numerals

What is left of a text when no binary operator splits it. A trailing `!` is looked
for first, then a function name after an optional multiplier, then a constant at
the end with its factor before it; anything else has to be a numeral.
-/

namespace Reckoner

/-- Takes the sign of a written-back number off the front. -/
def takeNegative : Text → Bool × Text
  | c :: rest => if c == negativeMark then (true, rest) else (false, c :: rest)
  | [] => (false, [])

/-- Takes the multiplier of a function off the front, if there is one. Only `E`
marks its exponent, so that `2e` is twice the constant. -/
def takeMultiplier (t : Text) : Text × Text :=
  let (negative, body) := takeNegative t
  match Numeral.scan (· == 'E') body with
  | some (numeral, rest) =>
    ((if negative then negativeMark :: numeral.text else numeral.text), rest)
  | none => ([], t)

/-- The arguments of a call, if the text is one bracketed list from end to end. -/
def bracketedList? (t : Text) : Option (List Text) :=
  if t.head? == some '[' && closingBracket t == some (t.length - 1) then
    some (splitTopLevel (· == ';') (t.drop 1).dropLast)
  else none

namespace Eval

variable {σ : Type} {stack : Stack}

/-- The value of a numeral, which may have the sign of a written-back number. -/
def readLiteral (t : Text) : Eval σ Float stack :=
  let (negative, body) := takeNegative t
  match Numeral.ofText? body with
  | none => refuse (.notANumeral t)
  | some numeral => match numeral.toDouble? negative with
    | none => refuse (.tooLarge t)
    | some x => return x

/-- The value of a multiplier; none at all stands for one. -/
def multiplierValue (t : Text) : Eval σ Float stack :=
  if t.isEmpty then return 1.0 else readLiteral t

def requireFinite (x : Float) (fragment : Text) : Eval σ Float stack :=
  unlessFailed (if x.isFinite then return x else refuse (.tooLarge fragment))

/-- Notes a step if no problem has been entered. -/
def noteUnlessFailed (step : Step) : Eval σ Unit stack := do
  if !(← failed) then note step

/-- Multiplies the value of a function and notes the call. -/
def finishCall (name : String) (multiplier : Text) (arguments : List Float) (value : Float)
    (expression : Text) : Eval σ Float stack := do
  let factor ← multiplierValue multiplier
  let result ← requireFinite (factor * value) expression
  noteUnlessFailed (.call name arguments value expression)
  return result

/-- Calls a function on an argument that has been worked out. -/
def callUnary (f : UnaryFunction) (multiplier : Text) (x : Float) (expression : Text) :
    Eval σ Float stack :=
  if !x.isFinite then refuse (.argumentTooLarge f.name)
  else if !f.admits x then refuse (.outsideDomain f.name x)
  else match f.transform x with
    | .error _ => refuse (.notRepresentable f.name [x])
    | .ok value => finishCall f.name multiplier [x] value expression

def applyUnary (recur : Recur σ stack) (f : UnaryFunction) (multiplier argument expression : Text) :
    Eval σ Float stack :=
  if argument.isEmpty then refuse (.missingArgument f.name expression)
  else if argument.head? == some '[' then refuse (.argumentList f.name)
  else do
    let x ← recur .application argument
    unlessFailed (callUnary f multiplier x expression)

/-- Calls a function on a list of arguments that has been worked out. -/
def callList (f : ListFunction) (multiplier : Text) (xs : List Float) (expression : Text) :
    Eval σ Float stack :=
  match f.arity with
  | some arity =>
    if xs.length != arity then refuse (.wrongArity f.name arity xs.length) else admitted
  | none => admitted
where
  /-- The call once the number of arguments is right. -/
  admitted : Eval σ Float stack :=
    if !f.admits xs then refuse (.listOutsideDomain f.name xs)
    else match f.transform xs with
      | .error _ => refuse (.notRepresentable f.name xs)
      | .ok value => finishCall f.name multiplier xs value expression

def applyList (recur : Recur σ stack) (f : ListFunction) (multiplier argument expression : Text) :
    Eval σ Float stack :=
  if argument.isEmpty then refuse (.missingArgument f.name expression)
  else match bracketedList? argument with
    | some pieces =>
      if pieces.any List.isEmpty then refuse (.malformedCall expression)
      else do
        let xs ← pieces.mapM (recur .whole)
        unlessFailed (callList f multiplier xs expression)
    | none => do
      let x ← recur .application argument
      unlessFailed (callList f multiplier [x] expression)

/-- A constant at the end of a text multiplies what is before it; a text without one
has to be a numeral. -/
def applyConstant (recur : Recur σ stack) (t : Text) : Eval σ Float stack :=
  match findConstant t with
  | none => readLiteral t
  | some c => do
    let front := t.take (t.length - c.name.length)
    let factor ← if front.isEmpty then pure 1.0 else recur .application front
    unlessFailed do
      let result ← requireFinite (factor * c.value) t
      noteUnlessFailed (.constant c.name c.value t)
      return result

/-- Functions, constants and numerals. -/
def application (recur : Recur σ stack) (t : Text) : Eval σ Float stack :=
  unlessFailed <|
    let (multiplier, rest) := takeMultiplier t
    match findListFunction rest with
    | some f => applyList recur f multiplier (rest.drop f.name.length) t
    | none => match findUnaryFunction rest with
      | some f => applyUnary recur f multiplier (rest.drop f.name.length) t
      | none => applyConstant recur t

/-- The factorial and what binds tighter. -/
def factorialTier (recur : Recur σ stack) (t : Text) : Eval σ Float stack :=
  unlessFailed <|
    if t.getLast? != some '!' then application recur t
    else if t.dropLast.isEmpty then refuse (.factorialOfNothing t)
    else do
      let value ← recur .factorial t.dropLast
      unlessFailed do
        let result ← factorial value
        noteUnlessFailed (.factorial value result t)
        return result

end Eval

end Reckoner

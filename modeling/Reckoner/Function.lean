import Reckoner.Number.Double
import Reckoner.Text

/-!
# Functions and constants

Two tables of functions and one of constants. Function names are looked for at the
front of a text, whatever the case of its letters; constant names at its end, in
their own case. The first name of a table that fits is taken, so a name stands
before any shorter name that it starts (or, for constants, ends) with.
-/

namespace Reckoner

/-- Why a function has no value to give. -/
inductive MathFault where
  | noRealValue
  | overflow
  | divisionByZero
  /-- An argument that is asked for is not there. -/
  | missingArgument
deriving DecidableEq, Repr

/-- A function of one argument. Its domain may be told by another function, and so
have no answer where that one has no value. -/
structure UnaryFunction where
  name : String
  transform : Float → Except MathFault Float
  domain : Float → Except MathFault Bool := fun _ => .ok true

/-- Whether a function takes an argument. -/
def UnaryFunction.admits (f : UnaryFunction) (x : Float) : Bool :=
  match f.domain x with
  | .ok isAdmitted => isAdmitted
  | .error _ => false

/-- A function of a list of arguments. Where the number of arguments is fixed it is
checked before the domain, which may ask for arguments that are not there. -/
structure ListFunction where
  name : String
  transform : List Float → Except MathFault Float
  domain : List Float → Except MathFault Bool := fun _ => .ok true
  arity : Option Nat := none

/-- Whether a function takes a list of arguments. -/
def ListFunction.admits (f : ListFunction) (xs : List Float) : Bool :=
  match f.domain xs with
  | .ok isAdmitted => isAdmitted
  | .error _ => false

structure Constant where
  name : String
  value : Float

/-! ## Values with their faults -/

/-- A result that is undefined for a defined argument is no real value, and an
infinite one for a finite argument is an overflow. -/
def judged (argument result : Float) : Except MathFault Float :=
  if result.isNaN && !argument.isNaN then .error .noRealValue
  else if result.isInf && argument.isFinite then .error .overflow
  else .ok result

/-- The natural logarithm; zero has none, like the negative numbers. -/
def naturalLog (x : Float) : Except MathFault Float :=
  if x == 0 then .error .noRealValue else judged x x.log

/-- The cube root, taken on the magnitude. -/
def cubeRoot (x : Float) : Float :=
  let root := x.abs.pow (1.0 / 3.0)
  match denote x with
  | .finite true _ _ => -root
  | .infinite true => -root
  | _ => root

/-- The double of a whole number near the argument. -/
def wholeValue (choose : Float → Option Int) (x : Float) : Except MathFault Float :=
  if x.isNaN then .error .noRealValue
  else match (choose x).bind intToDouble? with
    | some y => .ok y
    | none => .error .overflow

/-- The argument that `better` prefers; of two it does not tell apart, the first. -/
def firstBest (better : Float → Float → Bool) : List Float → Except MathFault Float
  | [] => .error .noRealValue
  | x :: rest => .ok (rest.foldl (fun best y => if better y best then y else best) x)

/-- The logarithm of the second argument to the base of the first. -/
def logarithm : List Float → Except MathFault Float
  | [base, x] => do
    let numerator ← naturalLog x
    let denominator ← naturalLog base
    if denominator == 0 then .error .divisionByZero else .ok (numerator / denominator)
  | _ => .error .noRealValue

/-- `base` to the power of `exponent`. For finite operands an undefined result is no
real value, and an infinite one is an overflow unless the base is zero, where it
is a division by zero and so no real value either. -/
def power (base exponent : Float) : Except MathFault Float :=
  let result := base.pow exponent
  if base.isFinite && exponent.isFinite then
    if result.isNaN then .error .noRealValue
    else if result.isInf then
      if base == 0 then .error .noRealValue else .error .overflow
    else .ok result
  else .ok result

/-! ## Domains -/

def unitInterval (x : Float) : Except MathFault Bool := .ok (-1 ≤ x && x ≤ 1)

/-- Where the tangent is defined; the cosine has no value at an infinity. -/
def cosineNotZero (x : Float) : Except MathFault Bool :=
  (judged x x.cos).map fun cosine => !(cosine == 0)

/-- Where the logarithm is defined: base and argument are positive and the base is not
one. The argument is looked at only once the base is positive, and no further argument
is looked at. -/
def logarithmDomain : List Float → Except MathFault Bool
  | [] => .error .missingArgument
  | [base] => if 0 < base then .error .missingArgument else .ok false
  | base :: x :: _ => .ok (0 < base && 0 < x && !(base == 1))

/-! ## The tables -/

def listFunctions : List ListFunction :=
  [{ name := "max", transform := firstBest fun y best => best < y },
   { name := "min", transform := firstBest fun y best => y < best },
   { name := "log", transform := logarithm, domain := logarithmDomain, arity := some 2 }]

def unaryFunctions : List UnaryFunction :=
  [{ name := "arcsin", transform := fun x => judged x x.asin, domain := unitInterval },
   { name := "arccos", transform := fun x => judged x x.acos, domain := unitInterval },
   { name := "arctan", transform := fun x => judged x x.atan },
   { name := "sinh", transform := fun x => judged x x.sinh },
   { name := "cosh", transform := fun x => judged x x.cosh },
   { name := "tanh", transform := fun x => judged x x.tanh },
   { name := "sin", transform := fun x => judged x x.sin },
   { name := "cos", transform := fun x => judged x x.cos },
   { name := "tan", transform := fun x => judged x x.tan, domain := cosineNotZero },
   { name := "sqrt", transform := fun x => judged x x.sqrt, domain := fun x => .ok (0 ≤ x) },
   { name := "cbrt", transform := fun x => .ok (cubeRoot x) },
   { name := "abs", transform := fun x => .ok x.abs },
   { name := "ceil", transform := wholeValue ceilToInt? },
   { name := "floor", transform := wholeValue floorToInt? },
   { name := "exp", transform := fun x => judged x x.exp },
   { name := "ln", transform := naturalLog, domain := fun x => .ok (0 < x) }]

/-- Mathematical constants and constants of nature in SI units. -/
def constants : List Constant :=
  [{ name := "electron", value := 1.602176634e-19 },
   { name := "epsilon", value := 8.8541878128e-12 },
   { name := "mu0", value := 1.25663706212e-6 },
   { name := "phi", value := (1 + Float.sqrt 5) / 2 },
   { name := "pi", value := 3.141592653589793 },
   { name := "G", value := 6.67430e-11 },
   { name := "c", value := 299792458 },
   { name := "e", value := 2.718281828459045 },
   { name := "k", value := 1.380649e-23 }]

/-! ## Looking names up -/

/-- The lower case of a character, as far as it holds a Latin letter: besides the
capitals these are the Kelvin sign and the capital I with a dot, which becomes two
characters. -/
def lowerForm (c : Char) : Text :=
  if c == '\u212a' then ['k']
  else if c == '\u0130' then ['i', '\u0307']
  else [c.toLower]

def Text.lowered (t : Text) : Text := t.flatMap lowerForm

/-- Whether a name starts a text in lower case. -/
def startsName (lowered : Text) (name : String) : Bool := name.toList.isPrefixOf lowered

def findListFunction (t : Text) : Option ListFunction :=
  let lowered := t.lowered
  listFunctions.find? fun f => startsName lowered f.name

def findUnaryFunction (t : Text) : Option UnaryFunction :=
  let lowered := t.lowered
  unaryFunctions.find? fun f => startsName lowered f.name

/-- The first constant whose name ends the text. -/
def findConstant (t : Text) : Option Constant :=
  constants.find? fun c => c.name.toList.isSuffixOf t

end Reckoner

import Reckoner.Dice.Roll
import Reckoner.Function

/-!
# Operators

The binary operators, the tiers they come in, and the factorial. Sums, differences
and products are never refused; the others enter a problem where they have no
value.
-/

namespace Reckoner

inductive Operator where
  | plus
  | minus
  | times
  | divide
  | power
  | modulo
  | dice
deriving DecidableEq, Repr

namespace Operator

def symbol : Operator → Char
  | plus => '+'
  | minus => '-'
  | times => '*'
  | divide => '/'
  | power => '^'
  | modulo => '%'
  | dice => 'd'

/-- The operator at a split point. Of the characters that split, `d` is the one the
others leave. -/
def ofSymbol : Char → Operator
  | '+' => plus
  | '-' => minus
  | '*' => times
  | '/' => divide
  | '^' => power
  | '%' => modulo
  | _ => dice

theorem ofSymbol_symbol (o : Operator) : ofSymbol o.symbol = o := by cases o <;> rfl

end Operator

/-- Operators of one precedence. -/
structure Tier where
  operators : List Operator
  /-- What an operand that is left out stands for. -/
  neutral : Float
  /-- Whether a character of the tier may be a sign. -/
  signed : Bool := false

namespace Tier

def symbols (tier : Tier) : Text := tier.operators.map Operator.symbol

def additive : Tier := { operators := [.plus, .minus], neutral := 0.0, signed := true }

def multiplicative : Tier := { operators := [.times, .divide], neutral := 1.0 }

def powers : Tier := { operators := [.power], neutral := 1.0 }

def diceAndModulo : Tier := { operators := [.dice, .modulo], neutral := 1.0 }

end Tier

namespace Eval

variable {σ : Type} {stack : Stack}

def divide (left right : Float) (fragment : Text) : Eval σ Float stack :=
  if right == 0 then refuse (.divisionByZero fragment) else return left / right

def modulo (left right : Float) (fragment : Text) : Eval σ Float stack :=
  if right == 0 then refuse (.moduloByZero fragment)
  else if !left.isFinite then refuse (.noRemainder fragment)
  else return remainder left right

/-- Zero to the power of zero is refused before the power is taken. -/
def raise (base exponent : Float) (fragment : Text) : Eval σ Float stack :=
  if base == 0 && exponent == 0 then refuse (.zeroToZero fragment)
  else match power base exponent with
    | .ok value => return value
    | .error .overflow => refuse (.tooLarge fragment)
    | .error _ => refuse (.noRealValue fragment)

/-- Applies an operator to its operands. -/
def combine (setting : Setting σ) (o : Operator) (left right : Float) (fragment : Text) :
    Eval σ Float stack :=
  match o with
  | .plus => return left + right
  | .minus => return left - right
  | .times => return left * right
  | .divide => divide left right fragment
  | .power => raise left right fragment
  | .modulo => modulo left right fragment
  | .dice => roll setting left right

end Eval

/-! ## The factorial -/

/-- Multiplies `product` by `count` more factors, from `factor` on. It gives up as
soon as one factor more would make the product infinite. -/
def productFrom : Nat → Nat → Float → Option Float
  | 0, _, product => some product
  | count + 1, factor, product =>
    let product := product * factor.toFloat
    if (product * (factor + 1).toFloat).isInf then none
    else productFrom count (factor + 1) product

/-- The product of the whole numbers up to `n`, which is one below two. -/
def factorialOf? (n : Int) : Option Float := productFrom (n - 1).toNat 2 1.0

/-- The factorial of the whole number nearest to `value`. -/
def Eval.factorial {σ : Type} {stack : Stack} (value : Float) : Eval σ Float stack :=
  match roundToInt? value with
  | none => refuse (.factorialOf value)
  | some n => match factorialOf? n with
    | some product => return product
    | none => refuse (.factorialTooLarge n)

end Reckoner

import Reckoner.Proofs.Operand

/-!
# Syntax trees

Expressions without dice as trees, how they are written, and what they denote. The value of a
tree is worked out node by node with the operations of the calculator; nothing here knows of
split points, literals or limits.
-/

namespace Reckoner

/-! ## Operations with their failures -/

/-- A value that is finite. -/
def finite? (x : Float) : Option Float := if x.isFinite then some x else none

/-- What an operator makes of two values, if it has a value for them. Dice are drawn, not
worked out. -/
def Operator.apply : Operator → Float → Float → Option Float
  | plus, x, y => some (x + y)
  | minus, x, y => some (x - y)
  | times, x, y => some (x * y)
  | divide, x, y => if y == 0 then none else some (x / y)
  | power, x, y => if x == 0 && y == 0 then none else (Reckoner.power x y).toOption
  | modulo, x, y => if y == 0 then none else if !x.isFinite then none else some (remainder x y)
  | dice, _, _ => none

/-- Operators with a greater level bind tighter. -/
def Operator.level : Operator → Nat
  | plus | minus => 1
  | times | divide => 2
  | power => 3
  | modulo | dice => 4

theorem Operator.level_pos (o : Operator) : 0 < o.level := by cases o <;> decide

theorem Operator.level_le (o : Operator) : o.level ≤ 4 := by cases o <;> decide

/-- The factorial of the whole number nearest to a value, if it can be represented. -/
def factorial? (x : Float) : Option Float := (roundToInt? x).bind factorialOf?

/-- A function of either table. -/
inductive Callee where
  | unary (f : UnaryFunction)
  | list (f : ListFunction)

namespace Callee

def name : Callee → Text
  | unary f => f.name.toList
  | list f => f.name.toList

/-- It can be looked up. -/
def Registered : Callee → Prop
  | unary f => f ∈ unaryFunctions
  | list f => f ∈ listFunctions

/-- What the function makes of its arguments, if they are as many as it takes and it has a
value for them. -/
def apply : Callee → List Float → Option Float
  | unary f, [x] => if x.isFinite && f.admits x then (f.transform x).toOption else none
  | unary _, _ => none
  | list f, xs =>
    if f.arity.all (xs.length == ·) && f.admits xs then (f.transform xs).toOption else none

end Callee

/-! ## Trees -/

inductive Tree where
  | numeral (n : Numeral)
  /-- A constant, with the numeral before it if there is one. -/
  | constant (factor : Option Numeral) (c : Constant)
  | group (t : Tree)
  | call (multiplier : Option Numeral) (f : Callee) (arguments : List Tree)
  | factorial (t : Tree)
  | binary (o : Operator) (l r : Tree)
  /-- An operand with a sign in front of it. -/
  | signed (negative : Bool) (t : Tree)

namespace Tree

/-- Induction on trees; of a call, for all of its arguments. -/
@[elab_as_elim, induction_eliminator]
theorem induct {P : Tree → Prop} (numeral : ∀ n, P (.numeral n))
    (constant : ∀ factor c, P (.constant factor c)) (group : ∀ t, P t → P (.group t))
    (call : ∀ multiplier f arguments, (∀ a ∈ arguments, P a) → P (.call multiplier f arguments))
    (factorial : ∀ t, P t → P (.factorial t)) (binary : ∀ o l r, P l → P r → P (.binary o l r))
    (signed : ∀ negative t, P t → P (.signed negative t)) (t : Tree) : P t :=
  @Tree.rec P (fun ts => ∀ t ∈ ts, P t) numeral constant group call factorial binary signed
    (fun _ h => absurd h List.not_mem_nil)
    (fun _ _ ht hts u hu => (List.mem_cons.mp hu).elim (fun e => e ▸ ht) (hts u)) t

/-- The operator that a sign stands for, with zero on its left. -/
def signOperator (negative : Bool) : Operator := if negative then .minus else .plus

/-- The text of a numeral that may be left out. -/
def optionalText (n : Option Numeral) : Text := (n.map Numeral.text).getD []

/-- The value of a numeral that may be left out, which then is one. -/
def optionalValue (n : Option Numeral) : Option Float :=
  match n with
  | some n => n.toDouble? false
  | none => some 1.0

/-! ### Writing -/

mutual

/-- The tree as a person writes it. -/
def print : Tree → Text
  | .numeral n => n.text
  | .constant factor c => optionalText factor ++ c.name.toList
  | .group t => '(' :: (t.print ++ [')'])
  | .call multiplier f arguments =>
    optionalText multiplier ++ f.name ++
      '(' :: (Text.join [','] (printAll arguments) ++ [')'])
  | .factorial t => t.print ++ ['!']
  | .binary o l r => l.print ++ o.symbol :: r.print
  | .signed negative t => (signOperator negative).symbol :: t.print

def printAll : List Tree → List Text
  | [] => []
  | t :: ts => t.print :: printAll ts

end

/-! ### Meaning -/

mutual

/-- The value of the tree; nothing if an operation in it has none. -/
def denote : Tree → Option Float
  | .numeral n => n.toDouble? false
  | .constant factor c => (optionalValue factor).bind fun x => finite? (x * c.value)
  | .group t => t.denote
  | .call multiplier f arguments =>
    (denoteAll arguments).bind fun xs => (f.apply xs).bind fun y =>
      (optionalValue multiplier).bind fun x => finite? (x * y)
  | .factorial t => t.denote.bind factorial?
  | .binary o l r => l.denote.bind fun x => r.denote.bind fun y => o.apply x y
  | .signed negative t => t.denote.bind fun x => (signOperator negative).apply 0.0 x

def denoteAll : List Tree → Option (List Float)
  | [] => some []
  | t :: ts => t.denote.bind fun x => (denoteAll ts).bind fun xs => some (x :: xs)

end

/-- The tree has a value, and that is finite. -/
def HasFinite (t : Tree) : Prop := ∃ x, t.denote = some x ∧ x.isFinite = true

/-- A tree is a node of another: that one itself, or one in its parts. -/
inductive Node : Tree → Tree → Prop where
  | self (t : Tree) : Node t t
  | factor (n : Numeral) (c : Constant) : Node (.numeral n) (.constant (some n) c)
  | multiplier (n : Numeral) (f : Callee) (arguments : List Tree) :
    Node (.numeral n) (.call (some n) f arguments)
  | group {u t : Tree} (h : Node u t) : Node u (.group t)
  | argument {u a : Tree} {arguments : List Tree} (multiplier : Option Numeral) (f : Callee)
    (ha : a ∈ arguments) (h : Node u a) : Node u (.call multiplier f arguments)
  | factorial {u t : Tree} (h : Node u t) : Node u (.factorial t)
  | left {u l : Tree} (o : Operator) (r : Tree) (h : Node u l) : Node u (.binary o l r)
  | right {u r : Tree} (o : Operator) (l : Tree) (h : Node u r) : Node u (.binary o l r)
  | signed {u t : Tree} (negative : Bool) (h : Node u t) : Node u (.signed negative t)

theorem denoteAll_eq_none {ts : List Tree} {t : Tree} (ht : t ∈ ts) (h : t.denote = none) :
    denoteAll ts = none := by
  induction ts with
  | nil => cases ht
  | cons u ts ih =>
    rw [denoteAll]
    rcases List.mem_cons.mp ht with rfl | ht
    · rw [h]
      rfl
    · rw [ih ht]
      cases u.denote <;> rfl

/-- No tree has a value if one of its nodes has none. -/
theorem Node.denote_eq_none {u t : Tree} (hu : Node u t) (h : u.denote = none) :
    t.denote = none := by
  induction hu with
  | self t => exact h
  | factor n c =>
    have hn : n.toDouble? false = none := h
    rw [denote, optionalValue, hn]
    rfl
  | multiplier n f arguments =>
    have hn : n.toDouble? false = none := h
    rw [denote]
    cases denoteAll arguments with
    | none => rfl
    | some xs =>
      dsimp only [Option.bind_some]
      rw [optionalValue, hn]
      cases f.apply xs <;> rfl
  | group _ ih => exact ih h
  | argument multiplier f ha _ ih =>
    rw [denote, denoteAll_eq_none ha (ih h)]
    rfl
  | factorial _ ih =>
    rw [denote, ih h]
    rfl
  | left o r _ ih =>
    rw [denote, ih h]
    rfl
  | @right u r o l _ ih =>
    rw [denote, ih h]
    cases l.denote <;> rfl
  | signed negative _ ih =>
    rw [denote, ih h]
    rfl

/-- Every node of the tree has a finite value. -/
def AllFinite (t : Tree) : Prop := ∀ u, Node u t → u.HasFinite

theorem AllFinite.hasFinite {t : Tree} (h : t.AllFinite) : t.HasFinite := h t (.self t)

namespace AllFinite

variable {t : Tree}

theorem of_group (h : (Tree.group t).AllFinite) : t.AllFinite := fun u hu => h u (.group hu)

theorem group (h : t.AllFinite) : (Tree.group t).AllFinite := by
  intro u hu
  cases hu with
  | self => exact h.hasFinite
  | group hu => exact h u hu

theorem of_factorial (h : (Tree.factorial t).AllFinite) : t.AllFinite :=
  fun u hu => h u (.factorial hu)

theorem of_signed {negative : Bool} (h : (Tree.signed negative t).AllFinite) : t.AllFinite :=
  fun u hu => h u (.signed negative hu)

theorem of_left {o : Operator} {l r : Tree} (h : (Tree.binary o l r).AllFinite) : l.AllFinite :=
  fun u hu => h u (.left o r hu)

theorem of_right {o : Operator} {l r : Tree} (h : (Tree.binary o l r).AllFinite) : r.AllFinite :=
  fun u hu => h u (.right o l hu)

theorem of_argument {multiplier : Option Numeral} {f : Callee} {arguments : List Tree}
    (h : (Tree.call multiplier f arguments).AllFinite) : ∀ a ∈ arguments, a.AllFinite :=
  fun _ ha u hu => h u (.argument multiplier f ha hu)

theorem of_factor {n : Numeral} {c : Constant} (h : (Tree.constant (some n) c).AllFinite) :
    (Tree.numeral n).AllFinite := by
  intro u hu
  cases hu with
  | self => exact h _ (.factor n c)

end AllFinite

/-! ### Precedence -/

/-- How tight the outermost operation of the tree binds. -/
def level : Tree → Nat
  | .binary o _ _ => o.level
  | .signed _ _ => 1
  | .factorial _ => 5
  | _ => 6

/-- The operand behind all the signs in front. -/
def unsigned : Tree → Tree
  | .signed _ t => t.unsigned
  | t => t

mutual

/-- The written tree is read as the tree it is. An operator has operands that bind as tight
on its left, and tighter ones on its right where signs do not count; names are those that can be
looked up, and there is no call without an argument. -/
def WellFormed : Tree → Prop
  | .numeral n => n.Regular
  | .constant factor c => (∀ n ∈ factor, n.Regular) ∧ c ∈ constants
  | .group t => t.WellFormed
  | .call multiplier f arguments =>
    (∀ n ∈ multiplier, n.Regular) ∧ f.Registered ∧ arguments ≠ [] ∧ EachWellFormed arguments
  | .factorial t => 5 ≤ t.level ∧ t.WellFormed
  | .binary o l r => o ≠ .dice ∧ (o.level ≤ l.level ∧ l.WellFormed) ∧
      o.level < r.unsigned.level ∧ r.WellFormed
  | .signed _ t => 1 < t.unsigned.level ∧ t.WellFormed

def EachWellFormed : List Tree → Prop
  | [] => True
  | t :: ts => t.WellFormed ∧ EachWellFormed ts

end

theorem eachWellFormed_iff {ts : List Tree} : EachWellFormed ts ↔ ∀ t ∈ ts, t.WellFormed := by
  induction ts with
  | nil => simp [EachWellFormed]
  | cons t ts ih => simp [EachWellFormed, ih]

theorem printAll_eq (ts : List Tree) : printAll ts = ts.map print := by
  induction ts with
  | nil => rfl
  | cons t ts ih => rw [printAll, ih, List.map_cons]

/-- An operand that binds tighter than a sum has no sign in front. -/
theorem unsigned_of_level {t : Tree} (h : 1 < t.level) : t.unsigned = t := by
  cases t with
  | signed negative t => exact absurd h (Nat.lt_irrefl 1)
  | _ => rfl

theorem level_pos (t : Tree) : 0 < t.level := by
  cases t with
  | binary o l r => exact o.level_pos
  | _ => simp [level]

end Tree

end Reckoner

import Reckoner.Proofs.Group
import Reckoner.Proofs.Name
import Reckoner.Proofs.Syntax.Tree

/-!
# Trees without their groups

Once the groups of a written tree are folded, its groups and the single arguments of its calls
have given way to the texts of their values, and its lists of arguments stand in square
brackets. Of what is left, every tier needs to know two things: no character of its own is
outside of all brackets but those of the tree's own operators, and no text ends in a character
after which a sign is expected.
-/

namespace Reckoner

namespace Tree

/-! ## The text that is left -/

/-- The text of the tree's value. -/
def literal (t : Tree) : Text := (t.denote.map literalText).getD []

mutual

/-- The text of the tree once its groups are folded. -/
def flatText : Tree → Text
  | .numeral n => n.text
  | .constant factor c => optionalText factor ++ c.name.toList
  | .group t => t.literal
  | .call multiplier f arguments => optionalText multiplier ++ f.name ++
    match arguments with
    | [a] => a.literal
    | _ => Eval.bracketed (flatTexts arguments)
  | .factorial t => t.flatText ++ ['!']
  | .binary o l r => l.flatText ++ o.symbol :: r.flatText
  | .signed negative t => (signOperator negative).symbol :: t.flatText

def flatTexts : List Tree → List Text
  | [] => []
  | t :: ts => t.flatText :: flatTexts ts

end

theorem flatTexts_eq (ts : List Tree) : flatTexts ts = ts.map flatText := by
  induction ts with
  | nil => rfl
  | cons t ts ih => rw [flatTexts, ih, List.map_cons]

mutual

/-- The groups that have been folded had finite values. -/
def Settled : Tree → Prop
  | .numeral _ => True
  | .constant _ _ => True
  | .group t => t.HasFinite
  | .call _ _ arguments =>
    match arguments with
    | [a] => a.HasFinite
    | _ => EachSettled arguments
  | .factorial t => t.Settled
  | .binary _ l r => l.Settled ∧ r.Settled
  | .signed _ t => t.Settled

def EachSettled : List Tree → Prop
  | [] => True
  | t :: ts => t.Settled ∧ EachSettled ts

end

theorem eachSettled_iff {ts : List Tree} : EachSettled ts ↔ ∀ t ∈ ts, t.Settled := by
  induction ts with
  | nil => simp [EachSettled]
  | cons t ts ih => simp [EachSettled, ih]

theorem literal_of_denote {t : Tree} {x : Float} (h : t.denote = some x) :
    t.literal = literalText x := by
  rw [literal, h]
  rfl

/-- Arguments are a single one or a list. -/
theorem single_or_list (arguments : List Tree) :
    (∃ a, arguments = [a]) ∨ ∀ a, arguments ≠ [a] := by
  match arguments with
  | [a] => exact .inl ⟨a, rfl⟩
  | [] => exact .inr fun a h => by cases h
  | a :: b :: rest => exact .inr fun c h => by cases h

theorem flatText_list {arguments : List Tree} (h : ∀ a, arguments ≠ [a])
    (multiplier : Option Numeral) (f : Callee) :
    flatText (.call multiplier f arguments) =
      optionalText multiplier ++ f.name ++ Eval.bracketed (arguments.map flatText) := by
  rw [flatText, ← flatTexts_eq]
  exact h

theorem settled_list {arguments : List Tree} (h : ∀ a, arguments ≠ [a])
    (multiplier : Option Numeral) (f : Callee) :
    Settled (.call multiplier f arguments) ↔ ∀ a ∈ arguments, a.Settled := by
  rw [Settled, ← eachSettled_iff]
  exact h

/-! ## Levels -/

mutual

/-- How many levels of nested evaluations lie below the one that reads the tree once its groups
are folded. Every operand takes one, except for those on the left of a chain of operators of one
tier, and so does every argument of a call. -/
def reading : Tree → Nat
  | .numeral _ => 0
  | .constant factor _ => if factor.isSome then 1 else 0
  | .group _ => 0
  | .call _ _ arguments =>
    match arguments with
    | [_] => 1
    | _ => readingEach arguments
  | .factorial t => t.reading + 1
  | .binary o l r => max (if l.level = o.level then l.reading else l.reading + 1) (r.reading + 1)
  | .signed _ t => t.reading + 1

def readingEach : List Tree → Nat
  | [] => 0
  | t :: ts => max (t.reading + 1) (readingEach ts)

end

mutual

/-- How many levels of nested evaluations lie below the one that folds the groups of the tree:
those that read the contents of a group, one after the other. -/
def folding : Tree → Nat
  | .numeral _ => 0
  | .constant _ _ => 0
  | .group t => max t.folding (t.reading + 1)
  | .call _ _ arguments =>
    let single := match arguments with
      | [a] => a.reading + 1
      | _ => 0
    max (foldingEach arguments) single
  | .factorial t => t.folding
  | .binary _ l r => max l.folding r.folding
  | .signed _ t => t.folding

def foldingEach : List Tree → Nat
  | [] => 0
  | t :: ts => max t.folding (foldingEach ts)

end

/-- How many levels of nested evaluations the tree needs. -/
def levels (t : Tree) : Nat := max t.folding t.reading + 1

theorem natCast_levels_le_iff (t : Tree) {most : Int} :
    (t.levels : Int) ≤ most ↔ t.levels ≤ most.toNat := by
  have hpos : 0 < t.levels := Nat.succ_pos _
  omega

theorem reading_list {arguments : List Tree} (h : ∀ a, arguments ≠ [a])
    (multiplier : Option Numeral) (f : Callee) :
    reading (.call multiplier f arguments) = readingEach arguments := by
  rw [reading]
  exact h

theorem folding_list {arguments : List Tree} (h : ∀ a, arguments ≠ [a])
    (multiplier : Option Numeral) (f : Callee) :
    folding (.call multiplier f arguments) = foldingEach arguments := by
  rw [folding, Nat.max_zero]
  exact h

theorem folding_single (multiplier : Option Numeral) (f : Callee) (a : Tree) :
    folding (.call multiplier f [a]) = max a.folding (a.reading + 1) := by
  rw [folding, foldingEach, foldingEach, Nat.max_zero]

theorem readingEach_le_iff {ts : List Tree} {n : Nat} :
    readingEach ts ≤ n ↔ ∀ t ∈ ts, t.reading < n := by
  induction ts with
  | nil => simp [readingEach]
  | cons t ts ih => rw [readingEach, max_le_iff, ih, Nat.succ_le_iff, List.forall_mem_cons]

theorem foldingEach_le_iff {ts : List Tree} {n : Nat} :
    foldingEach ts ≤ n ↔ ∀ t ∈ ts, t.folding ≤ n := by
  induction ts with
  | nil => simp [foldingEach]
  | cons t ts ih => simp [foldingEach, ih]

/-! ## Characters -/

end Tree

/-- The characters of all names. -/
def nameText : Text :=
  (listFunctions.map (·.name) ++ unaryFunctions.map (·.name) ++ constants.map (·.name)).flatMap
    String.toList

theorem Callee.mem_nameText {f : Callee} (h : f.Registered) : ∀ c ∈ f.name, c ∈ nameText := by
  intro c hc
  cases f with
  | unary f =>
    refine List.mem_flatMap.mpr ⟨f.name, ?_, hc⟩
    simp only [List.mem_append, List.mem_map]
    exact .inl (.inr ⟨f, h, rfl⟩)
  | list f =>
    refine List.mem_flatMap.mpr ⟨f.name, ?_, hc⟩
    simp only [List.mem_append, List.mem_map]
    exact .inl (.inl ⟨f, h, rfl⟩)

theorem Constant.mem_nameText {k : Constant} (h : k ∈ constants) :
    ∀ c ∈ k.name.toList, c ∈ nameText := by
  intro c hc
  refine List.mem_flatMap.mpr ⟨k.name, ?_, hc⟩
  simp only [List.mem_append, List.mem_map]
  exact .inr ⟨k, h, rfl⟩

theorem isBracket_of_mem_nameText : ∀ c ∈ nameText, isBracket c = false := by decide

namespace Tree

theorem isNumberChar_of_mem_optionalText {n : Option Numeral} (h : ∀ m ∈ n, m.Regular) :
    ∀ c ∈ optionalText n, IsNumberChar c := by
  cases n with
  | none => intro c hc; cases hc
  | some n => exact isNumberChar_of_mem_text (h n rfl)

theorem isNumberChar_of_mem_literal {t : Tree} (h : t.HasFinite) :
    ∀ c ∈ t.literal, IsNumberChar c := by
  obtain ⟨x, hx, hfinite⟩ := h
  rw [literal_of_denote hx]
  exact isNumberChar_of_mem_literalText hfinite

theorem lt_level_unsigned {t : Tree} {k : Nat} (h : k < t.level) : k < t.unsigned.level := by
  by_cases hlevel : 1 < t.level
  · rw [unsigned_of_level hlevel]
    exact h
  · have := t.unsigned.level_pos
    omega

theorem sealed_join {P : Char → Prop} {separator : Char} (hb : isBracket separator = false)
    (hseparator : P separator) {parts : List Text} (h : ∀ p ∈ parts, Sealed P p) :
    Sealed P (Text.join [separator] parts) :=
  join_of_append .nil (fun hs ht => hs.append (.char hb hseparator ht)) h

/-- What a property of the characters of a tree has to hold of: those of numbers, names and
factorials, and the operators that bind tighter than `k`. -/
structure Covers (P : Char → Prop) (k : Nat) : Prop where
  number : ∀ c, IsNumberChar c → P c
  name : ∀ c ∈ nameText, P c
  mark : P '!'
  operator : ∀ o : Operator, k < o.level → P o.symbol

theorem covers_true : Covers (fun _ => True) 0 :=
  ⟨fun _ _ => trivial, fun _ _ => trivial, trivial, fun _ _ => trivial⟩

theorem symbol_signOperator (negative : Bool) : IsNumberChar (signOperator negative).symbol := by
  cases negative with
  | false => exact .inr (by decide)
  | true => exact .inr (by decide)

/-- **Characters outside of brackets.** Those of a tree whose operations bind tighter than `k`
are the characters of numbers, names and factorials, and its operators'. -/
theorem sealed_flatText {P : Char → Prop} {k : Nat} (hP : Covers P k) {t : Tree}
    (hwf : t.WellFormed) (hs : t.Settled) (hk : k < t.unsigned.level) : Sealed P t.flatText := by
  have hchars : ∀ {Q : Char → Prop} {j : Nat}, Covers Q j → ∀ {s : Text},
      (∀ c ∈ s, IsNumberChar c) → Sealed Q s := fun hQ _ h =>
    sealed_of_isNumberChar h fun c hc => hQ.number c (h c hc)
  have hnames : ∀ {Q : Char → Prop} {j : Nat}, Covers Q j → ∀ {s : Text},
      (∀ c ∈ s, c ∈ nameText) → Sealed Q s := fun hQ _ h =>
    .of_forall fun c hc => ⟨isBracket_of_mem_nameText c (h c hc), hQ.name c (h c hc)⟩
  induction t generalizing P k with
  | numeral n => exact hchars hP (isNumberChar_of_mem_text hwf)
  | constant factor c =>
    exact (hchars hP (isNumberChar_of_mem_optionalText hwf.1)).append
      (hnames hP (Constant.mem_nameText hwf.2))
  | group t _ => exact hchars hP (isNumberChar_of_mem_literal hs)
  | call multiplier f arguments ih =>
    obtain ⟨hmultiplier, hregistered, -, hall⟩ := hwf
    have hfront := (hchars hP (isNumberChar_of_mem_optionalText hmultiplier)).append
      (hnames hP (Callee.mem_nameText hregistered))
    rcases single_or_list arguments with ⟨a, rfl⟩ | hlist
    · exact hfront.append (hchars hP (isNumberChar_of_mem_literal hs))
    · rw [flatText_list hlist]
      rw [settled_list hlist] at hs
      refine hfront.append (.bracketed (sealed_join rfl trivial fun p hp => ?_) .nil)
      obtain ⟨a, ha, rfl⟩ := List.mem_map.mp hp
      exact ih a ha covers_true (eachWellFormed_iff.mp hall a ha) (hs a ha) (level_pos _)
  | factorial t ih =>
    have hlevel : k < t.unsigned.level := by
      rw [unsigned_of_level (by have := hwf.1; omega)]
      exact lt_of_lt_of_le hk hwf.1
    exact (ih hP hwf.2 hs hlevel).append
      (.of_forall fun c hc => by rw [List.mem_singleton.mp hc]; exact ⟨rfl, hP.mark⟩)
  | binary o l r ihl ihr =>
    obtain ⟨-, ⟨hlevel, hl⟩, hright, hr⟩ := hwf
    have hko : k < o.level := hk
    exact (ihl hP hl hs.1 (lt_level_unsigned (by omega))).append
      (.char (isBracket_symbol o) (hP.operator o hko) (ihr hP hr hs.2 (by omega)))
  | signed negative t ih =>
    exact .char (isBracket_symbol _) (hP.number _ (symbol_signOperator negative))
      (ih hP hwf.2 hs hk)

end Tree

end Reckoner

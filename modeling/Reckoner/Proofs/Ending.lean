import Reckoner.Proofs.Head
import Reckoner.Proofs.Syntax.Splits
import Reckoner.Proofs.Termination
import Reckoner.Proofs.Token

/-!
# How a text may end

After an operator, and after the mark of an exponent, a `+` or `-` is a sign. A text that comes to
a value may end with an operator, whose right operand is then left out, but never with the mark:
nothing that is read at its end does (`unmarked_of_derives`). Folding the groups of a text
does not bring such a character to its end either (`EndsOperand.foldGroups`).
-/

namespace Reckoner

open Eval

/-- The last character of a text is one of some characters. -/
def EndsIn (P : Char → Prop) (t : Text) : Prop := ∃ c, t.getLast? = some c ∧ P c

namespace EndsIn

variable {P : Char → Prop} {r : Text}

theorem concat (l : Text) {c : Char} (hc : P c) : EndsIn P (l ++ [c]) :=
  ⟨c, List.getLast?_concat, hc⟩

theorem getLast {t : Text} (ht : t ≠ []) (h : P (t.getLast ht)) : EndsIn P t :=
  ⟨t.getLast ht, List.getLast?_eq_some_getLast ht, h⟩

theorem ne_nil {t : Text} (h : EndsIn P t) : t ≠ [] := by
  rintro rfl
  obtain ⟨c, hc, -⟩ := h
  cases hc

theorem append (h : EndsIn P r) (l : Text) : EndsIn P (l ++ r) := by
  obtain ⟨c, hc, hP⟩ := h
  exact ⟨c, by rw [List.getLast?_append, hc, Option.some_or], hP⟩

theorem of_append {l : Text} (h : EndsIn P (l ++ r)) (hr : r ≠ []) : EndsIn P r := by
  rwa [EndsIn, List.getLast?_append_of_ne_nil l hr] at h

/-- Behind a group a text is what it is with something else in its place. -/
theorem of_group {before inner after : Text} (hafter : after ≠ [])
    (h : EndsIn P (before ++ '(' :: (inner ++ ')' :: after))) : EndsIn P after := by
  have htext : before ++ '(' :: (inner ++ ')' :: after) =
      (before ++ '(' :: (inner ++ [')'])) ++ after := by simp
  rw [htext] at h
  exact h.of_append hafter

/-- A group that nothing follows ends the text with its closer. -/
theorem group {before mid after : Text} (h : EndsIn P (before ++ mid ++ after)) (hP : P ')')
    (inner : Text) : EndsIn P (before ++ '(' :: (inner ++ ')' :: after)) := by
  have htext : before ++ '(' :: (inner ++ ')' :: after) =
      (before ++ '(' :: inner) ++ ')' :: after := by simp
  rw [htext]
  by_cases hafter : after = []
  · subst hafter
    exact concat _ hP
  · exact ((h.of_append hafter).append [')']).append _

end EndsIn

/-! ## Folded groups -/

/-- A text ends with a character that takes no sign after it. -/
abbrev EndsOperand : Text → Prop := EndsIn (isSignLead · = false)

section Folding

variable {σ : Type} {recur : Recur σ} {s u : Progress σ}

theorem endsOperand_valueText (before : Text) {value : Float} (hvalue : value.isFinite = true) :
    EndsOperand (valueText before value []) := by
  obtain ⟨c, hlast, hdigit⟩ := exists_last_literalText hvalue
  have hliteral : EndsOperand (literalText value) :=
    ⟨c, hlast, not_isSignLead_of_isNumberEnd (.inl hdigit)⟩
  have htext : valueText before value [] = timesBeside before.getLast? ++ literalText value :=
    List.append_nil _
  rw [htext]
  exact hliteral.append _

/-- What is put in the place of a group ends like an operand. -/
theorem EndsOperand.foldGroup {before inner after folded : Text}
    (ht : EndsOperand (before ++ '(' :: (inner ++ ')' :: after)))
    (h : foldGroup recur (.between before inner after) inner s = .ok folded u)
    (hu : u.failed = false) : EndsOperand folded := by
  obtain ⟨-, ⟨-, -, rfl, -⟩ | ⟨-, value, -, -, -, hvalue, rfl, -⟩⟩ := foldGroup_eq_ok h hu
  · by_cases hafter : after = []
    · rw [hafter, List.append_nil, bracketed]
      exact (EndsIn.concat _ (show isSignLead ']' = false from rfl)).append before
    · exact (ht.of_group hafter).append _
  · by_cases hafter : after = []
    · rw [hafter, List.append_nil]
      exact (endsOperand_valueText before hvalue).append before
    · exact (ht.of_group hafter).append _

theorem EndsOperand.foldGroups (hstops : ∀ entry t, Stops IsOne (recur entry t)) {rounds : Nat}
    {t flat : Text} (ht : EndsOperand t) (h : foldGroups recur rounds t s = .ok flat u)
    (hu : u.failed = false) : EndsOperand flat := by
  induction rounds generalizing t s with
  | zero =>
    cases h
    exact ht
  | succ rounds ih =>
    by_cases hmem : ')' ∈ t
    · obtain ⟨-, before, inner, after, folded, v, rfl, -, -, hfirst, hv, hrest⟩ :=
        exists_first_round hstops hmem h hu
      exact ih (EndsOperand.foldGroup ht hfirst hv) hrest
    · rw [foldGroups_of_no_closer hmem] at h
      cases h
      exact ht

end Folding

/-! ## The mark of an exponent -/

/-- A text is not empty and does not end with the mark of an exponent. -/
abbrev EndsUnmarked : Text → Prop := EndsIn (· ≠ 'E')

theorem ne_mark_of_isNumberEnd {c : Char} (hc : IsNumberEnd c) : c ≠ 'E' := by
  rcases hc with hc | rfl
  · exact Numeral.ne_of_isDecimalDigit hc (by decide)
  · decide

theorem endsUnmarked_numeral {n : Numeral} (hn : n.Shaped) : EndsUnmarked n.text := by
  rcases hn.exponent with he | ⟨mark, rest, he, -, sign, digits, rfl, -, hne, hdigits⟩
  · obtain ⟨front, c, htext, hc⟩ := signedNumeral_eq_concat hn.significand false
    have hplain : n.text = front ++ [c] := by
      rw [← htext, Numeral.text, he]
      rfl
    rw [hplain]
    exact .concat front (ne_mark_of_isNumberEnd hc)
  · have hlast : EndsUnmarked digits :=
      .getLast hne (ne_mark_of_isNumberEnd (.inl (hdigits _ (List.getLast_mem hne))))
    rw [Numeral.text, he]
    exact ((hlast.append sign).append [mark]).append _

theorem endsUnmarked_of_readsAs {t : Text} {x : Float} (h : ReadsAs t x) : EndsUnmarked t := by
  obtain ⟨n, hn, -⟩ := h
  have hbody : EndsUnmarked (takeNegative t).2 := by
    rw [← Numeral.text_of_ofText hn]
    exact endsUnmarked_numeral (Numeral.shaped_of_ofText hn)
  rw [← sign_append_takeNegative t]
  exact hbody.append _

theorem endsUnmarked_constant {k : Constant} (hk : k ∈ constants) :
    EndsUnmarked k.name.toList := by
  simp only [constants, List.mem_cons, List.not_mem_nil, or_false] at hk
  rcases hk with rfl | rfl | rfl | rfl | rfl | rfl | rfl | rfl | rfl <;>
    exact ⟨_, rfl, by decide⟩

theorem ne_mark_of_mem_symbols {tier : Tier} {c : Char} (hc : c ∈ tier.symbols) : c ≠ 'E' := by
  obtain ⟨o, -, rfl⟩ := List.mem_map.mp hc
  cases o <;> decide

/-- What a judgement says of the end of its text. -/
def Judgement.Unmarked : Judgement → Prop
  | .nested _ t _ | .direct _ t _ => EndsUnmarked t
  | .side _ t _ => t = [] ∨ EndsUnmarked t
  | .arguments _ _ => True
  | .folds t flat => EndsUnmarked flat → EndsUnmarked t

/-- Nothing that comes to a value ends with the mark of an exponent. -/
theorem unmarked_of_derives {judgement : Judgement} {es : List Event} {ns : List Float}
    (h : Derives judgement es ns) : judgement.Unmarked := by
  induction h with
  | nested _ ih => exact ih
  | flat => exact id
  | listed _ _ ih => exact fun hflat => (ih hflat).group (by decide) _
  | valued _ _ _ _ _ ih => exact fun hflat => (ih hflat).group (by decide) _
  | whole _ _ ihflat ih => exact ihflat ih
  | split _ _ hc _ _ _ _ _ ih =>
    rcases ih with rfl | ih
    · exact .concat _ (ne_mark_of_mem_symbols hc)
    · exact (ih.append [_]).append _
  | unsplit _ _ ih => exact ih
  | missing => exact .inl rfl
  | operand _ _ ih => exact .inr ih
  | chain _ _ ih => exact .inr ih
  | applied _ ih => exact ih
  | factorial => exact .concat _ (by decide)
  | unary hf _ _ _ _ ih =>
    obtain ⟨head, ht, -⟩ := exists_unaryCall hf
    rw [Judgement.Unmarked, ht]
    exact EndsIn.append ih head
  | single hf _ _ _ ih =>
    obtain ⟨head, ht, -⟩ := exists_listCall hf
    rw [Judgement.Unmarked, ht]
    exact EndsIn.append ih head
  | list hf hpieces =>
    obtain ⟨head, ht, -⟩ := exists_listCall hf
    rw [Judgement.Unmarked, ht, eq_bracketed_of_bracketedList hpieces, bracketed]
    exact (EndsIn.concat _ (by decide)).append head
  | constant hk => exact endsUnmarked_constant hk
  | multiple hk => exact (endsUnmarked_constant hk).append _
  | literal h => exact endsUnmarked_of_readsAs h
  | nil => trivial
  | cons => trivial

/-- A sign stands behind an operator or the mark of an exponent. -/
theorem eq_of_isSignLead {c : Char} (h : isSignLead c = true) :
    (∃ o : Operator, c = o.symbol) ∨ c = 'E' := by
  rw [isSignLead, List.contains_eq_mem, decide_eq_true_iff] at h
  have hall : ∀ c ∈ ['+', '-', '*', '/', '^', '%', 'd', 'E'],
      c = (Operator.ofSymbol c).symbol ∨ c = 'E' := by decide
  exact (hall c h).imp_left fun hsymbol => ⟨_, hsymbol⟩

/-- **The end of an expression.** An expression that has a value and does not end with an operator
ends with a character that takes no sign after it. -/
theorem endsOperand_of_success {σ : Type} {setting : Setting σ} {dice after : σ} {t : Text}
    {e : Evaluation} (h : evaluateExpression setting dice t = .ok (e, after))
    (he : e.failed = false) (hlast : ∀ o : Operator, t.withoutBlanks.getLast? ≠ some o.symbol) :
    EndsOperand t.withoutBlanks := by
  obtain ⟨c, hc, hmark⟩ : EndsUnmarked t.withoutBlanks :=
    unmarked_of_derives (derives_of_success h he)
  refine ⟨c, hc, ?_⟩
  by_contra hlead
  rcases eq_of_isSignLead (by simpa using hlead) with ⟨o, rfl⟩ | hE
  · exact hlast o hc
  · exact hmark hE

end Reckoner

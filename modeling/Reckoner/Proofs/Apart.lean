import Reckoner.Proofs.Head
import Mathlib.Data.List.Chain

/-!
# Lists stand apart

In a text that is evaluated without a problem a list of arguments is not next to a number or to
another list: no digit is directly in front of `[`, and directly behind `]` there is no digit,
no sign or point of a number, no group and no list. The text may have groups that become lists
on the way; then the same holds of every text that the folding leads through.
-/

namespace Reckoner

open Eval

/-! ## Neighbours -/

/-- The second character may stand directly behind the first one. -/
def Apart (p q : Char) : Prop :=
  (q = '[' → isDigitLike p = false) ∧
    (p = ']' → isDigitLike q = false ∧ q ∉ [negativeMark, '.', '(', '['])

/-- The lists of a text are apart from numbers, groups and lists. -/
def ListsApart (t : Text) : Prop := t.IsChain Apart

theorem apart_of_left {p q : Char} (hdigit : isDigitLike p = false) (hclose : p ≠ ']') :
    Apart p q :=
  ⟨fun _ => hdigit, fun h => absurd h hclose⟩

theorem apart_of_right {p q : Char} (hdigit : isDigitLike q = false)
    (hopen : q ∉ [negativeMark, '.', '(', '[']) : Apart p q :=
  ⟨fun h => absurd (by simp [h]) hopen, fun _ => ⟨hdigit, hopen⟩⟩

theorem apart_of_ne {p q : Char} (hclose : p ≠ ']') (hopen : q ≠ '[') : Apart p q :=
  ⟨fun h => absurd h hopen, fun h => absurd h hclose⟩

/-- A character next to which anything may stand. -/
def Neutral (c : Char) : Prop :=
  isDigitLike c = false ∧ c ∉ [negativeMark, '.', '(', '[', ']']

theorem Neutral.right {c : Char} (h : Neutral c) (q : Char) : Apart c q :=
  apart_of_left h.1 fun hc => h.2 (by simp [hc])

theorem Neutral.left {c : Char} (h : Neutral c) (p : Char) : Apart p c :=
  apart_of_right h.1 fun hc => h.2 (by
    simp only [List.mem_cons, List.not_mem_nil, or_false] at hc ⊢
    tauto)

instance (c : Char) : Decidable (Neutral c) := inferInstanceAs (Decidable (_ ∧ _))

theorem neutral_symbol (o : Operator) : Neutral o.symbol := by cases o <;> decide

theorem listsApart_nil : ListsApart [] := .nil

theorem listsApart_append {s t : Text} : ListsApart (s ++ t) ↔
    ListsApart s ∧ ListsApart t ∧
      ∀ p, s.getLast? = some p → ∀ q, t.head? = some q → Apart p q :=
  List.isChain_append

theorem listsApart_cons {c : Char} {t : Text} :
    ListsApart (c :: t) ↔ (∀ q, t.head? = some q → Apart c q) ∧ ListsApart t :=
  List.isChain_cons

/-- A neutral character parts a text. -/
theorem listsApart_append_neutral {s t : Text} {c : Char} (hc : Neutral c) :
    ListsApart (s ++ c :: t) ↔ ListsApart s ∧ ListsApart t := by
  rw [listsApart_append, listsApart_cons]
  constructor
  · rintro ⟨hs, ⟨-, ht⟩, -⟩
    exact ⟨hs, ht⟩
  · rintro ⟨hs, ht⟩
    refine ⟨hs, ⟨fun q _ => hc.right q, ht⟩, fun p _ q hq => ?_⟩
    cases hq
    exact hc.left p

theorem listsApart_of_isWordChar {t : Text} (h : ∀ c ∈ t, IsWordChar c) : ListsApart t := by
  induction t with
  | nil => exact listsApart_nil
  | cons c t ih =>
    obtain ⟨hc, ht⟩ := List.forall_mem_cons.mp h
    refine listsApart_cons.mpr ⟨fun q hq => apart_of_ne ?_ ?_, ih ht⟩
    · rintro rfl
      exact absurd (isBracket_of_isWordChar hc) (by decide)
    · rintro rfl
      exact absurd (isBracket_of_isWordChar (ht _ (List.mem_of_head? hq))) (by decide)

/-- The argument of a call is apart from the name in front of it. -/
theorem listsApart_call {t head argument : Text} (ht : t = head ++ argument)
    (hhead : ∀ c ∈ head, IsWordChar c)
    (hlast : ∀ c, head.getLast? = some c → isDigitLike c = false) (h : ListsApart argument) :
    ListsApart t := by
  rw [ht]
  refine listsApart_append.mpr ⟨listsApart_of_isWordChar hhead, h, fun p hp q _ => ?_⟩
  refine apart_of_left (hlast p hp) ?_
  rintro rfl
  exact absurd (isBracket_of_isWordChar (hhead _ (List.mem_of_getLast? hp))) (by decide)

/-! ## Lists and groups -/

theorem listsApart_cons_neutral {c : Char} (hc : Neutral c) {t : Text} :
    ListsApart (c :: t) ↔ ListsApart t :=
  listsApart_cons.trans (and_iff_right fun q _ => hc.right q)

/-- Separators that are neutral can be changed. -/
theorem listsApart_of_reseparated {isSeparator : Char → Bool} {a : Char} (ha : Neutral a)
    (hseparator : ∀ c, isSeparator c = true → Neutral c) {t u : Text}
    (h : Reseparated isSeparator a t u) : ListsApart u ↔ ListsApart t := by
  -- with a character in front, so that the first character counts, too
  have hbehind : ∀ p, ListsApart (p :: u) ↔ ListsApart (p :: t) := by
    induction h with
    | nil => exact fun p => Iff.rfl
    | keep c _ ih =>
      intro p
      rw [ListsApart, List.isChain_cons_cons, ListsApart, List.isChain_cons_cons]
      exact and_congr_right fun _ => ih c
    | @change c _ _ hc _ _ ih =>
      intro p
      have hneutral := hseparator c hc
      rw [ListsApart, List.isChain_cons_cons, ListsApart, List.isChain_cons_cons]
      refine and_congr (iff_of_true (ha.left p) (hneutral.left p)) ?_
      refine (ih a).trans ((listsApart_cons_neutral ha).trans ?_)
      exact (listsApart_cons_neutral hneutral).symm
  exact (listsApart_cons_neutral ha).symm.trans ((hbehind a).trans (listsApart_cons_neutral ha))

theorem listsApart_join {a : Char} (ha : Neutral a) {parts : List Text}
    (h : ∀ p ∈ parts, ListsApart p) : ListsApart (Text.join [a] parts) :=
  join_of_append listsApart_nil (fun hs ht => (listsApart_append_neutral ha).mpr ⟨hs, ht⟩) h

/-- A list whose arguments have their lists apart has so, too. -/
theorem listsApart_of_bracketedList {argument : Text} {pieces : List Text}
    (h : bracketedList? argument = some pieces) (hpieces : ∀ p ∈ pieces, ListsApart p) :
    ListsApart argument := by
  rw [eq_bracketed_of_bracketedList h]
  refine listsApart_cons.mpr ⟨fun q _ => apart_of_left (by decide) (by decide), ?_⟩
  have hjoin := listsApart_join (a := ';') (by decide) hpieces
  refine listsApart_append.mpr ⟨hjoin, List.isChain_singleton _, fun p _ q hq => ?_⟩
  cases hq
  exact apart_of_right (by decide) (by decide)

/-- Around a group there is nothing that its brackets would be too close to but a list in front
of it. -/
theorem listsApart_group {before inner after : Text} (hbefore : ListsApart before)
    (hlast : before.getLast? ≠ some ']') (hinner : ListsApart inner) (hafter : ListsApart after) :
    ListsApart (before ++ '(' :: (inner ++ ')' :: after)) := by
  have hclose : ListsApart (inner ++ ')' :: after) :=
    (listsApart_append_neutral (by decide)).mpr ⟨hinner, hafter⟩
  refine listsApart_append.mpr ⟨hbefore, listsApart_cons.mpr ⟨fun q _ => ?_, hclose⟩, ?_⟩
  · exact apart_of_left (by decide) (by decide)
  · intro p hp q hq
    cases hq
    refine apart_of_ne ?_ (by decide)
    rintro rfl
    exact hlast hp

/-- Where the list of a group is apart, so was the group. -/
theorem listsApart_listed {before inner after : Text}
    (h : ListsApart (before ++ bracketed (splitTopLevel (· == ',') inner) ++ after)) :
    ListsApart (before ++ '(' :: (inner ++ ')' :: after)) := by
  rw [bracketed, List.append_assoc, List.cons_append, List.cons_append, List.append_assoc,
    listsApart_append, listsApart_cons, listsApart_append, List.singleton_append,
    listsApart_cons] at h
  obtain ⟨hbefore, ⟨-, hjoin, ⟨-, hafter⟩, -⟩, hlast⟩ := h
  have hcomma : ∀ c, (c == ',') = true → Neutral c := by
    intro c hc
    rw [eq_of_beq hc]
    decide
  have hinner : ListsApart inner := (listsApart_of_reseparated (by decide) hcomma
    (reseparated_join (· == ',') ';' 0 inner)).mp hjoin
  refine listsApart_group hbefore (fun hclose => ?_) hinner hafter
  -- the list that the group becomes is already too close to a list in front of it
  exact ((hlast ']' hclose '[' rfl).2 rfl).2 (by decide)

/-- The literal of a value starts with a character that no list may be directly in front of. -/
theorem exists_head_literalText {x : Float} (hx : x.isFinite = true) :
    ∃ c rest, literalText x = c :: rest ∧ ¬Apart ']' c := by
  obtain ⟨negative, n, htext, hn, -⟩ := exists_numeral_of_isFinite hx
  cases negative with
  | true => exact ⟨negativeMark, n.text, htext, fun h => (h.2 rfl).2 (by decide)⟩
  | false =>
    obtain ⟨c, rest, hnumeral, hc⟩ := text_of_regular_eq_cons hn
    refine ⟨c, rest, htext.trans hnumeral, fun h => ?_⟩
    rcases hc with hdigit | rfl
    · have hlike : isDigitLike c = true := by rw [isDigitLike, hdigit, Bool.true_or]
      rw [(h.2 rfl).1] at hlike
      cases hlike
    · exact (h.2 rfl).2 (by decide)

/-- Where the value of a group is apart from lists, so was the group. -/
theorem listsApart_valued {before inner after : Text} {x : Float} (hx : x.isFinite = true)
    (hinner : ListsApart inner)
    (h : ListsApart (before ++ valueText before x after ++ after)) :
    ListsApart (before ++ '(' :: (inner ++ ')' :: after)) := by
  rw [List.append_assoc, listsApart_append, listsApart_append] at h
  obtain ⟨hbefore, ⟨-, hafter, -⟩, hlast⟩ := h
  refine listsApart_group hbefore (fun hclose => ?_) hinner hafter
  obtain ⟨c, rest, htext, hc⟩ := exists_head_literalText hx
  have htimes : timesBeside (some ']') = [] := by decide
  refine hc (hlast ']' hclose c ?_)
  rw [valueText, hclose, htimes, htext]
  rfl

/-! ## Derivations -/

/-- What is derived has its lists apart. -/
def Judgement.ListsApart : Judgement → Prop
  | .nested _ t _ | .direct _ t _ | .side _ t _ => Reckoner.ListsApart t
  | .arguments pieces _ => ∀ p ∈ pieces, Reckoner.ListsApart p
  | .folds t flat => Reckoner.ListsApart flat → Reckoner.ListsApart t

theorem exists_head_constant {k : Constant} (hk : k ∈ constants) :
    ∃ c rest, k.name.toList = c :: rest ∧ ∀ p, Apart p c := by
  simp only [constants, List.mem_cons, List.not_mem_nil, or_false] at hk
  rcases hk with rfl | rfl | rfl | rfl | rfl | rfl | rfl | rfl | rfl <;>
    exact ⟨_, _, rfl, fun p => apart_of_right (by decide) (by decide)⟩

theorem Derives.listsApart {judgement : Judgement} {es : List Event} {ns : List Float}
    (h : Derives judgement es ns) : judgement.ListsApart := by
  induction h with
  | nested _ ih => exact ih
  | flat _ => exact id
  | listed _ _ ih => exact fun hflat => listsApart_listed (ih hflat)
  | valued _ _ hfinite _ ihx ih => exact fun hflat => listsApart_valued hfinite ihx (ih hflat)
  | whole _ _ ihflat ihx => exact ihflat ihx
  | split _ _ hc _ _ _ _ ihx ihy =>
    obtain ⟨o, -, rfl⟩ := List.mem_map.mp hc
    exact (listsApart_append_neutral (neutral_symbol o)).mpr ⟨ihx, ihy⟩
  | missing _ => exact listsApart_nil
  | unsplit _ _ ih | operand _ _ ih | chain _ _ ih | applied _ ih => exact ih
  | factorial _ _ ih => exact (listsApart_append_neutral (by decide)).mpr ⟨ih, listsApart_nil⟩
  | unary hf _ _ _ _ ih =>
    obtain ⟨head, ht, hhead, hlast⟩ := exists_unaryHead hf
    exact listsApart_call ht hhead hlast ih
  | single hf _ _ _ ih =>
    obtain ⟨head, ht, hhead, hlast⟩ := exists_listHead hf
    exact listsApart_call ht hhead hlast ih
  | list hf hpieces _ _ _ ih =>
    obtain ⟨head, ht, hhead, hlast⟩ := exists_listHead hf
    exact listsApart_call ht hhead hlast (listsApart_of_bracketedList hpieces ih)
  | constant hk _ => exact listsApart_of_isWordChar (isWordChar_of_mem_constant hk)
  | multiple hk _ _ ih =>
    obtain ⟨c, rest, hname, hc⟩ := exists_head_constant hk
    refine listsApart_append.mpr
      ⟨ih, listsApart_of_isWordChar (isWordChar_of_mem_constant hk), fun p _ q hq => ?_⟩
    rw [hname] at hq
    cases hq
    exact hc p
  | literal h => exact listsApart_of_isWordChar (isWordChar_of_readsAs h)
  | nil => exact List.forall_mem_nil _
  | cons _ _ ihx ihxs => exact List.forall_mem_cons.mpr ⟨ihx, ihxs⟩

end Reckoner

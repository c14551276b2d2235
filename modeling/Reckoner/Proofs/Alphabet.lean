import Reckoner.Proofs.Head

/-!
# No character is passed over

No tier refuses a character that it does not know: it cuts off what it knows and hands the rest
on, and an empty piece stands for a neutral value. All the same every character of an
expression has to be used up somewhere. An expression that is evaluated without a problem is
written with the characters of numbers, names, operators, brackets and separators, its round
brackets match, and each of its commas stands in a group (`Derives.written`).
-/

namespace Reckoner

open Eval

/-! ## Characters of expressions -/

/-- The letters that names of functions are written with. -/
def IsNameLetter (d : Char) : Prop :=
  (∃ f ∈ listFunctions, d ∈ f.name.toList) ∨ ∃ f ∈ unaryFunctions, d ∈ f.name.toList

instance (d : Char) : Decidable (IsNameLetter d) := inferInstanceAs (Decidable (_ ∨ _))

/-- The characters that expressions are written with. Names of functions may be written in
either case, names of constants in their own only. -/
def IsExpressionChar (c : Char) : Prop :=
  isDecimalDigit c = true ∨
    c ∈ ['.', '_', '!', '+', '-', '*', '/', '^', '%', 'd', '(', ')', '[', ']', ';', ',', 'e', 'E'] ∨
    (c.isAlpha = true ∧ IsNameLetter c.toLower) ∨
    ∃ k ∈ constants, c ∈ k.name.toList

instance (c : Char) : Decidable (IsExpressionChar c) := inferInstanceAs (Decidable (_ ∨ _))

/-- A character that may stand anywhere: a blank, or one of expressions that neither opens nor
closes a group nor separates the arguments in one. -/
structure IsPlain (c : Char) : Prop where
  known : isBlank c = true ∨ IsExpressionChar c
  apart : c ∉ ['(', ')', ',']

theorem isPlain_of_isBlank {c : Char} (h : isBlank c = true) : IsPlain c where
  known := .inl h
  apart := by
    intro hc
    have hall : ∀ c ∈ ['(', ')', ','], isBlank c = false := by decide
    rw [hall c hc] at h
    cases h

theorem isPlain_of_isNumberChar {c : Char} (h : IsNumberChar c) : IsPlain c where
  known := by
    refine .inr (h.imp_right fun hc => .inl ?_)
    have hall : ∀ c ∈ ['.', 'E', '+', '-', negativeMark], c ∈ ['.', '_', '!', '+', '-', '*', '/',
        '^', '%', 'd', '(', ')', '[', ']', ';', ',', 'e', 'E'] := by decide
    exact hall c hc
  apart := by
    intro hc
    have hall : ∀ c ∈ ['(', ')', ','], isDecimalDigit c = false ∧
        c ∉ ['.', 'E', '+', '-', negativeMark] := by decide
    obtain ⟨hdigit, hmark⟩ := hall c hc
    exact ne_of_isNumberChar h hdigit hmark rfl

theorem isPlain_of_readsAs {t : Text} {x : Float} (h : ReadsAs t x) : ∀ c ∈ t, IsPlain c := by
  intro c hc
  rcases isNumberChar_of_readsAs h c hc with hnumber | rfl
  · exact isPlain_of_isNumberChar hnumber
  · exact ⟨.inr (by decide), by decide⟩

theorem isPlain_symbol (o : Operator) : IsPlain o.symbol := by
  cases o <;> exact ⟨.inr (by decide), by decide⟩

theorem isPlain_of_mem_constant {k : Constant} (hk : k ∈ constants) :
    ∀ c ∈ k.name.toList, IsPlain c := by
  have hname : ∀ k ∈ constants, ∀ c ∈ k.name.toList, c ∉ ['(', ')', ','] := by
    simp only [constants, List.forall_mem_cons]
    decide
  exact fun c hc => ⟨.inr (.inr (.inr (.inr ⟨k, hk, hc⟩))), hname k hk c hc⟩

/-- No name of a function has a `k`, for which the Kelvin sign could stand. -/
theorem isNameLetter_spec {d : Char} (h : IsNameLetter d) : d.isLower = true ∧ d ≠ 'k' := by
  have hlist : ∀ f ∈ listFunctions, ∀ d ∈ f.name.toList, d.isLower = true ∧ d ≠ 'k' := by
    simp only [listFunctions, List.forall_mem_cons]
    decide
  have hunary : ∀ f ∈ unaryFunctions, ∀ d ∈ f.name.toList, d.isLower = true ∧ d ≠ 'k' := by
    simp only [unaryFunctions, List.forall_mem_cons]
    decide
  rcases h with ⟨f, hf, hd⟩ | ⟨f, hf, hd⟩
  · exact hlist f hf d hd
  · exact hunary f hf d hd

/-- What is read as the letter of a name is that letter in either case. -/
theorem isPlain_of_lowerForm {c d : Char} (hd : IsNameLetter d) (hform : lowerForm c = [d]) :
    IsPlain c := by
  obtain ⟨hlower, hkelvin⟩ := isNameLetter_spec hd
  have htoLower : c.toLower = d := by
    unfold lowerForm at hform
    split_ifs at hform
    · exact absurd (List.singleton_inj.mp hform).symm hkelvin
    · cases hform
    · exact List.singleton_inj.mp hform
  have halpha : c.isAlpha = true := by
    refine Bool.or_eq_true_iff.mpr ?_
    by_cases hupper : c.val ≥ 'A'.val ∧ c.val ≤ 'Z'.val
    · exact .inl (decide_eq_true hupper)
    · have hsame : c.toLower = c := dif_neg hupper
      exact .inr (by rw [← hsame, htoLower, hlower])
  refine ⟨.inr (.inr (.inr (.inl ⟨halpha, htoLower ▸ hd⟩))), fun hc => ?_⟩
  have hall : ∀ c ∈ ['(', ')', ','], c.isAlpha = false := by decide
  rw [hall c hc] at halpha
  cases halpha

theorem isPlain_of_isCallChar {name : String} (hname : ∀ d ∈ name.toList, IsNameLetter d)
    {c : Char} (h : IsCallChar name c) : IsPlain c := by
  rcases h with hnumber | ⟨d, hd, hform⟩
  · exact isPlain_of_isNumberChar hnumber
  · exact isPlain_of_lowerForm (hname d hd) hform

/-! ## Groups along a text -/

/-- Read from so many open groups on, a text has only known characters, and leaves so many
groups open. A closing bracket and a comma need an open group. -/
inductive Passes : Nat → Text → Nat → Prop where
  | nil (opened : Nat) : Passes opened [] opened
  | opener {opened left : Nat} {t : Text} (h : Passes (opened + 1) t left) :
    Passes opened ('(' :: t) left
  | closer {opened left : Nat} {t : Text} (h : Passes opened t left) :
    Passes (opened + 1) (')' :: t) left
  | comma {opened left : Nat} {t : Text} (h : Passes (opened + 1) t left) :
    Passes (opened + 1) (',' :: t) left
  | plain {opened left : Nat} {c : Char} {t : Text} (hc : IsPlain c) (h : Passes opened t left) :
    Passes opened (c :: t) left

/-- A text as a whole is read, and every group of it is closed. -/
def Written (t : Text) : Prop := Passes 0 t 0

namespace Passes

variable {opened left : Nat} {s t : Text}

theorem known (h : Passes opened t left) : ∀ c ∈ t, isBlank c = true ∨ IsExpressionChar c := by
  induction h with
  | nil => exact List.forall_mem_nil _
  | opener _ ih | closer _ ih | comma _ ih =>
    exact List.forall_mem_cons.mpr ⟨.inr (by decide), ih⟩
  | plain hc _ ih => exact List.forall_mem_cons.mpr ⟨hc.known, ih⟩

theorem append {between : Nat} (hs : Passes opened s between) (ht : Passes between t left) :
    Passes opened (s ++ t) left := by
  induction hs with
  | nil => exact ht
  | opener _ ih => exact .opener (ih ht)
  | closer _ ih => exact .closer (ih ht)
  | comma _ ih => exact .comma (ih ht)
  | plain hc _ ih => exact .plain hc (ih ht)

theorem of_append (h : Passes opened (s ++ t) left) :
    ∃ between, Passes opened s between ∧ Passes between t left := by
  induction s generalizing opened with
  | nil => exact ⟨opened, .nil opened, h⟩
  | cons c s ih =>
    rw [List.cons_append] at h
    cases h with
    | opener h =>
      obtain ⟨between, hs, ht⟩ := ih h
      exact ⟨between, .opener hs, ht⟩
    | closer h =>
      obtain ⟨between, hs, ht⟩ := ih h
      exact ⟨between, .closer hs, ht⟩
    | comma h =>
      obtain ⟨between, hs, ht⟩ := ih h
      exact ⟨between, .comma hs, ht⟩
    | plain hc h =>
      obtain ⟨between, hs, ht⟩ := ih h
      exact ⟨between, .plain hc hs, ht⟩

theorem of_plain (h : ∀ c ∈ t, IsPlain c) (opened : Nat) : Passes opened t opened := by
  induction t with
  | nil => exact .nil opened
  | cons c t ih =>
    obtain ⟨hc, ht⟩ := List.forall_mem_cons.mp h
    exact .plain hc (ih ht)

/-- Without round brackets the open groups stay the same. -/
theorem eq_of_flat (h : Passes opened t left) (ht : Flat t) : left = opened := by
  induction h with
  | nil => rfl
  | opener => exact absurd List.mem_cons_self ht.1
  | closer => exact absurd List.mem_cons_self ht.2
  | comma _ ih | plain _ _ ih =>
    exact ih ⟨fun h => ht.1 (List.mem_cons_of_mem _ h), fun h => ht.2 (List.mem_cons_of_mem _ h)⟩

/-- Inside a group a text without round brackets only needs known characters. -/
theorem of_flat (ht : Flat t) (h : ∀ c ∈ t, isBlank c = true ∨ IsExpressionChar c)
    (opened : Nat) : Passes (opened + 1) t (opened + 1) := by
  induction t with
  | nil => exact .nil _
  | cons c t ih =>
    obtain ⟨hc, hrest⟩ := List.forall_mem_cons.mp h
    have htail := ih
      ⟨fun h => ht.1 (List.mem_cons_of_mem c h), fun h => ht.2 (List.mem_cons_of_mem c h)⟩ hrest
    by_cases hcomma : c = ','
    · subst hcomma
      exact .comma htail
    · refine .plain ⟨hc, ?_⟩ htail
      simp only [List.mem_cons, List.not_mem_nil, or_false, not_or]
      exact ⟨fun h => ht.1 (h ▸ List.mem_cons_self), fun h => ht.2 (h ▸ List.mem_cons_self), hcomma⟩

/-- Blanks may stand anywhere. -/
theorem of_withoutBlanks (h : Passes opened t.withoutBlanks left) : Passes opened t left := by
  induction t generalizing opened with
  | nil => exact h
  | cons c t ih =>
    rw [Text.withoutBlanks, List.filter_cons] at h
    split_ifs at h with hc
    · cases h with
      | opener h => exact .opener (ih h)
      | closer h => exact .closer (ih h)
      | comma h => exact .comma (ih h)
      | plain hc h => exact .plain hc (ih h)
    · exact .plain (isPlain_of_isBlank (by simpa using hc)) (ih h)

end Passes

/-! ## Texts that are written -/

theorem written_of_plain {t : Text} (h : ∀ c ∈ t, IsPlain c) : Written t := Passes.of_plain h 0

theorem Written.append {s t : Text} (hs : Written s) (ht : Written t) : Written (s ++ t) :=
  Passes.append hs ht

theorem Written.cons {c : Char} {t : Text} (hc : IsPlain c) (ht : Written t) : Written (c :: t) :=
  Passes.plain hc ht

theorem written_join {a : Char} (ha : IsPlain a) {parts : List Text}
    (h : ∀ p ∈ parts, Written p) : Written (Text.join [a] parts) :=
  join_of_append (.nil 0) (fun hs ht => hs.append (ht.cons ha)) h

/-- A list of written arguments is written. -/
theorem written_of_bracketedList {argument : Text} {pieces : List Text}
    (h : bracketedList? argument = some pieces) (hpieces : ∀ p ∈ pieces, Written p) :
    Written argument := by
  have hopen : IsPlain '[' := ⟨.inr (by decide), by decide⟩
  have hseparator : IsPlain ';' := ⟨.inr (by decide), by decide⟩
  have hclose : IsPlain ']' := ⟨.inr (by decide), by decide⟩
  rw [eq_bracketed_of_bracketedList h]
  exact ((written_join hseparator hpieces).append (.plain hclose (.nil 0))).cons hopen

/-- What stands for a group tells how many groups are open around it, and that is how many are
open around the group. -/
theorem written_group {before mid inner after : Text} (hmid : Flat mid) (hinner : Flat inner)
    (hknown : ∀ c ∈ inner, isBlank c = true ∨ IsExpressionChar c)
    (h : Written (before ++ mid ++ after)) :
    Written (before ++ '(' :: (inner ++ ')' :: after)) := by
  obtain ⟨left, hfront, hafter⟩ := Passes.of_append h
  obtain ⟨opened, hbefore, hpassed⟩ := Passes.of_append hfront
  rw [hpassed.eq_of_flat hmid] at hafter
  exact hbefore.append (.opener ((Passes.of_flat hinner hknown opened).append (.closer hafter)))

theorem written_listed {before inner after : Text} (hinner : Flat inner)
    (h : Written (before ++ bracketed (splitTopLevel (· == ',') inner) ++ after)) :
    Written (before ++ '(' :: (inner ++ ')' :: after)) := by
  refine written_group (flat_bracketed hinner) hinner (fun c hc => ?_) h
  by_cases hseparator : c ∈ [',', ';']
  · have hall : ∀ c ∈ [',', ';'], IsExpressionChar c := by decide
    exact .inr (hall c hseparator)
  · simp only [List.mem_cons, List.not_mem_nil, or_false, not_or] at hseparator
    have hcount := @count_bracketed inner c hseparator.1 hseparator.2
    have hpos := List.count_pos_iff.mpr hc
    have hmem : c ∈ bracketed (splitTopLevel (· == ',') inner) :=
      List.count_pos_iff.mp (by omega)
    exact h.known c (List.mem_append_left after (List.mem_append_right before hmem))

theorem written_valued {before inner after : Text} {x : Float} (hx : x.isFinite = true)
    (hinner : Flat inner) (hwritten : Written inner)
    (h : Written (before ++ valueText before x after ++ after)) :
    Written (before ++ '(' :: (inner ++ ')' :: after)) :=
  written_group (flat_valueText before after hx) hinner hwritten.known h

/-! ## Derivations -/

/-- What is derived is written. -/
def Judgement.Written : Judgement → Prop
  | .nested _ t _ | .direct _ t _ | .side _ t _ => Reckoner.Written t
  | .arguments pieces _ => ∀ p ∈ pieces, Reckoner.Written p
  | .folds t flat => Reckoner.Written flat → Reckoner.Written t

/-- The argument of a call is written where the name in front of it is of a table. -/
theorem written_call {t head argument : Text} {name : String} (ht : t = head ++ argument)
    (hhead : ∀ c ∈ head, IsCallChar name c) (hname : ∀ d ∈ name.toList, IsNameLetter d)
    (h : Written argument) : Written t :=
  ht ▸ (written_of_plain fun c hc => isPlain_of_isCallChar hname (hhead c hc)).append h

/-- **No character is passed over.** -/
theorem Derives.written {judgement : Judgement} {es : List Event} {ns : List Float}
    (h : Derives judgement es ns) : judgement.Written := by
  induction h with
  | nested _ ih => exact ih
  | flat _ => exact id
  | listed hinner _ ih => exact fun hflat => written_listed hinner (ih hflat)
  | valued hinner _ hfinite _ ihx ih =>
    exact fun hflat => written_valued hfinite hinner ihx (ih hflat)
  | whole _ _ ihflat ihx => exact ihflat ihx
  | split _ _ hc _ _ _ _ ihx ihy =>
    obtain ⟨o, -, rfl⟩ := List.mem_map.mp hc
    exact ihx.append (ihy.cons (isPlain_symbol o))
  | missing _ => exact .nil 0
  | unsplit _ _ ih | operand _ _ ih | chain _ _ ih | applied _ ih => exact ih
  | factorial _ _ ih => exact ih.append (.plain ⟨.inr (by decide), by decide⟩ (.nil 0))
  | unary hf _ _ _ _ ih =>
    obtain ⟨head, ht, hhead, -⟩ := exists_unaryCall hf
    exact written_call ht hhead (fun d hd => .inr ⟨_, (mem_of_findUnaryFunction hf).1, hd⟩) ih
  | single hf _ _ _ ih =>
    obtain ⟨head, ht, hhead, -⟩ := exists_listCall hf
    exact written_call ht hhead (fun d hd => .inl ⟨_, (mem_of_findListFunction hf).1, hd⟩) ih
  | list hf hpieces _ _ _ ih =>
    obtain ⟨head, ht, hhead, -⟩ := exists_listCall hf
    exact written_call ht hhead (fun d hd => .inl ⟨_, (mem_of_findListFunction hf).1, hd⟩)
      (written_of_bracketedList hpieces ih)
  | constant hk _ => exact written_of_plain (isPlain_of_mem_constant hk)
  | multiple hk _ _ ih => exact ih.append (written_of_plain (isPlain_of_mem_constant hk))
  | literal h => exact written_of_plain (isPlain_of_readsAs h)
  | nil => exact List.forall_mem_nil _
  | cons _ _ ihx ihxs => exact List.forall_mem_cons.mpr ⟨ihx, ihxs⟩

/-! ## Where a comma stands -/

/-- The round brackets of a text match. -/
inductive Matched : Text → Prop where
  | nil : Matched []
  | char {c : Char} {t : Text} (hopen : c ≠ '(') (hclose : c ≠ ')') (h : Matched t) :
    Matched (c :: t)
  | group {x t : Text} (hx : Matched x) (ht : Matched t) : Matched ('(' :: (x ++ ')' :: t))

/-- What stands between two texts is in a group: a round bracket of the first one belongs to one
of the second. -/
def Enclosed (l r : Text) : Prop :=
  ∃ before x y after, l = before ++ '(' :: x ∧ r = y ++ ')' :: after ∧ Matched (x ++ y)

theorem Matched.append {s t : Text} (hs : Matched s) (ht : Matched t) : Matched (s ++ t) := by
  induction hs with
  | nil => exact ht
  | char hopen hclose _ ih => exact .char hopen hclose ih
  | @group x s hx _ _ ih =>
    rw [List.cons_append, List.append_assoc, List.cons_append]
    exact .group hx ih

theorem IsPlain.matched {c : Char} (hc : IsPlain c) {t : Text} (ht : Matched t) :
    Matched (c :: t) :=
  .char (fun h => hc.apart (by simp [h])) (fun h => hc.apart (by simp [h])) ht

namespace Passes

/-- The last opener of the groups that a text leaves open. -/
theorem exists_opener {l : Text} {left : Nat} (h : Passes 0 l (left + 1)) :
    ∃ before x, l = before ++ '(' :: x ∧ Passes 0 before left ∧ Matched x := by
  induction hlength : l.length using Nat.strong_induction_on generalizing l left with
  | h length ih =>
    rcases List.eq_nil_or_concat l with rfl | ⟨front, c, rfl⟩
    · cases h
    rw [List.concat_eq_append] at h hlength ⊢
    rw [List.length_append, List.length_singleton] at hlength
    obtain ⟨opened, hfront, hlast⟩ := of_append h
    -- a character that is no bracket stays inside the group that is open in front of it
    have hinside : ∀ {c : Char}, Matched [c] → opened = left + 1 →
        ∃ before x, front ++ [c] = before ++ '(' :: x ∧ Passes 0 before left ∧ Matched x := by
      rintro c hc rfl
      obtain ⟨before, x, rfl, hbefore, hx⟩ := ih front.length (by omega) hfront rfl
      exact ⟨before, x ++ [c], by simp, hbefore, hx.append hc⟩
    cases hlast with
    | opener h =>
      cases h
      exact ⟨front, [], rfl, hfront, .nil⟩
    | closer h =>
      cases h
      -- the bracket closes an inner group; the group that is left open is around that one
      obtain ⟨outer, x, rfl, houter, hx⟩ := ih front.length (by omega) hfront rfl
      rw [List.length_append, List.length_cons] at hlength
      obtain ⟨before, y, rfl, hbefore, hy⟩ := ih outer.length (by omega) houter rfl
      exact ⟨before, y ++ '(' :: (x ++ [')']), by simp, hbefore, hy.append (.group hx .nil)⟩
    | comma h =>
      cases h
      exact hinside (.char (by decide) (by decide) .nil) rfl
    | plain hc h =>
      cases h
      exact hinside (hc.matched .nil) rfl

/-- The closer of a group that is open in front of a text. -/
theorem exists_closer {r : Text} {opened left : Nat} (h : Passes (opened + 1) r left)
    (hleft : left ≤ opened) :
    ∃ y after, r = y ++ ')' :: after ∧ Passes opened after left ∧ Matched y := by
  induction hlength : r.length using Nat.strong_induction_on generalizing r opened with
  | h length ih =>
    cases h with
    | nil => omega
    | @opener _ _ t h =>
      rw [List.length_cons] at hlength
      -- first to the closer of the group that opens here, then on from there
      obtain ⟨x, rest, rfl, hrest, hx⟩ := ih t.length (by omega) h (by omega) rfl
      rw [List.length_append, List.length_cons] at hlength
      obtain ⟨y, after, rfl, hafter, hy⟩ := ih rest.length (by omega) hrest hleft rfl
      exact ⟨'(' :: (x ++ ')' :: y), after, by simp, hafter, .group hx hy⟩
    | @closer _ _ t h => exact ⟨[], t, rfl, h, .nil⟩
    | @comma _ _ t h =>
      rw [List.length_cons] at hlength
      obtain ⟨y, after, rfl, hafter, hy⟩ := ih t.length (by omega) h hleft rfl
      exact ⟨',' :: y, after, rfl, hafter, .char (by decide) (by decide) hy⟩
    | @plain _ _ c t hc h =>
      rw [List.length_cons] at hlength
      obtain ⟨y, after, rfl, hafter, hy⟩ := ih t.length (by omega) h hleft rfl
      exact ⟨c :: y, after, rfl, hafter, hc.matched hy⟩

end Passes

/-- A comma of a written text stands in a group. -/
theorem Written.enclosed {l r : Text} (h : Written (l ++ ',' :: r)) : Enclosed l r := by
  obtain ⟨opened, hl, hr⟩ := Passes.of_append h
  cases hr with
  | comma hr =>
    obtain ⟨before, x, rfl, -, hx⟩ := hl.exists_opener
    obtain ⟨y, after, rfl, -, hy⟩ := hr.exists_closer (Nat.zero_le _)
    exact ⟨before, x, y, after, rfl, rfl, hx.append hy⟩
  | plain hc => exact absurd (by decide) hc.apart

/-! ## Whole expressions -/

variable {σ : Type}

/-- **No character is ignored.** Whatever the limits and the dice are, an evaluation that comes
to an end ends with a problem if the expression has a character that is no blank and that no
expression is written with. So it does if a comma stands outside all round brackets, in square
ones or not. -/
theorem evaluateExpression_unwritten {stack : Stack} {setting : Setting σ} {dice after : σ}
    {expression : Text} {e : Evaluation}
    (h : evaluateExpression setting dice expression stack = .ok (e, after))
    (hunwritten : (∃ c ∈ expression, isBlank c = false ∧ ¬IsExpressionChar c) ∨
      ∃ l r, expression = l ++ ',' :: r ∧ ¬Enclosed l r) :
    e.failed = true := by
  by_contra he
  have hwritten : Written expression :=
    Passes.of_withoutBlanks (derives_of_success h (by simpa using he)).written
  rcases hunwritten with ⟨c, hc, hblank, hforeign⟩ | ⟨l, r, rfl, houtside⟩
  · rcases hwritten.known c hc with hknown | hknown
    · rw [hblank] at hknown
      cases hknown
    · exact hforeign hknown
  · exact houtside hwritten.enclosed

/-- The Kelvin sign stands for no constant, though its lower case is the name of one, and a
comma between arguments needs round brackets even in a list. -/
theorem evaluateExpression_unwritten_kelvin :
    (∃ e, evaluateExpression usual .low ['2', '\u212a'] = .ok (e, .low) ∧ e.failed = true) ∧
      ∃ e, evaluateExpression usual .low ['m', 'a', 'x', '[', '1', ',', '2', ']'] =
        .ok (e, .low) ∧ e.failed = true := by
  have hends : ∀ t, (evaluateExpression usual .low t).map (·.2) = .ok .low →
      ∃ e, evaluateExpression usual .low t = .ok (e, .low) := by
    intro t h
    cases hrun : evaluateExpression usual .low t with
    | error fault => rw [hrun] at h; cases h
    | ok finished =>
      obtain ⟨e, after⟩ := finished
      rw [hrun] at h
      cases h
      exact ⟨e, rfl⟩
  obtain ⟨e, hkelvin⟩ := hends ['2', '\u212a'] (by decide +kernel)
  obtain ⟨e', hlist⟩ := hends ['m', 'a', 'x', '[', '1', ',', '2', ']'] (by decide +kernel)
  have houtside : ¬Enclosed ['m', 'a', 'x', '[', '1'] ['2', ']'] := by
    rintro ⟨before, x, -, -, hleft, -⟩
    have hmem : '(' ∈ before ++ '(' :: x := by simp
    rw [← hleft] at hmem
    revert hmem
    decide
  exact ⟨⟨e, hkelvin, evaluateExpression_unwritten hkelvin (.inl (by decide))⟩,
    e', hlist, evaluateExpression_unwritten hlist (.inr ⟨_, _, rfl, houtside⟩)⟩

end Reckoner

import Reckoner.Proofs.Syntax.Agreement
import Reckoner.Proofs.Syntax.Splits

/-!
# Numerals, constants, groups and calls

What is no operation is evaluated by the last tier. It takes the multiplier off, finds the name
and hands on what is left; each of these agrees with the meaning of the tree as long as nested
evaluations do.
-/

namespace Reckoner

open Eval

/-! ## Names behind numerals -/

/-- The text starts with a character that no numeral goes on with. -/
def StartsWord (t : Text) : Prop :=
  ∃ c rest, t = c :: rest ∧ isDecimalDigit c = false ∧ c ∉ ['.', 'E', negativeMark]

theorem StartsWord.append {s : Text} (h : StartsWord s) (t : Text) : StartsWord (s ++ t) := by
  obtain ⟨c, rest, rfl, hc⟩ := h
  exact ⟨c, rest ++ t, rfl, hc⟩

theorem startsWord_callee {f : Callee} (h : f.Registered) : StartsWord f.name := by
  cases f with
  | list f =>
    simp only [Callee.Registered, listFunctions, List.mem_cons, List.not_mem_nil, or_false] at h
    rcases h with rfl | rfl | rfl <;> exact ⟨_, _, rfl, by decide, by decide⟩
  | unary f =>
    simp only [Callee.Registered, unaryFunctions, List.mem_cons, List.not_mem_nil, or_false] at h
    rcases h with rfl | rfl | rfl | rfl | rfl | rfl | rfl | rfl | rfl | rfl | rfl | rfl | rfl |
      rfl | rfl | rfl <;> exact ⟨_, _, rfl, by decide, by decide⟩

theorem startsWord_constant {k : Constant} (h : k ∈ constants) : StartsWord k.name.toList := by
  simp only [constants, List.mem_cons, List.not_mem_nil, or_false] at h
  rcases h with rfl | rfl | rfl | rfl | rfl | rfl | rfl | rfl | rfl <;>
    exact ⟨_, _, rfl, by decide, by decide⟩

/-- A word cannot be taken for a multiplier, nor for a part of one. -/
theorem takeMultiplier_optional {n : Option Numeral} (hn : ∀ m ∈ n, m.Regular) {t : Text}
    (ht : StartsWord t) : takeMultiplier (Tree.optionalText n ++ t) = (Tree.optionalText n, t) := by
  obtain ⟨c, rest, rfl, hdigit, hc⟩ := ht
  simp only [List.mem_cons, List.not_mem_nil, or_false, not_or] at hc
  cases n with
  | some n =>
    refine takeMultiplier_append (hn n rfl) false ?_
    intro d hd
    cases hd
    exact ⟨hdigit, hc.1, beq_false_of_ne hc.2.1⟩
  | none =>
    have hmark : (c == negativeMark) = false := beq_false_of_ne hc.2.2
    -- without a multiplier there is nothing that a numeral could start with
    have hscan : Numeral.scan (· == 'E') (c :: rest) = none := by
      rw [Numeral.scan, Numeral.scanSignificand, List.takeWhile_cons_of_neg (by simpa using hdigit),
        List.dropWhile_cons_of_neg (by simpa using hdigit)]
      split
      · next heq =>
        cases heq
        exact absurd rfl hc.1
      · rfl
    show takeMultiplier (c :: rest) = ([], c :: rest)
    rw [takeMultiplier, takeNegative, hmark]
    dsimp only
    rw [if_neg Bool.false_ne_true]
    dsimp only
    rw [hscan]

/-! ## What follows a name -/

/-- A number starts with a digit, the point, or the sign of a written-back one. -/
theorem exists_head_literal {t : Tree} (h : t.HasFinite) :
    ∃ c rest, t.literal = c :: rest ∧ (isDecimalDigit c = true ∨ c ∈ ['.', negativeMark]) := by
  obtain ⟨x, hx, hfinite⟩ := h
  obtain ⟨negative, n, htext, hn, -⟩ := exists_numeral_of_isFinite hfinite
  obtain ⟨c, rest, hc, hhead⟩ := text_of_regular_eq_cons hn
  rw [Tree.literal_of_denote hx, htext, signedNumeral]
  cases negative with
  | true => exact ⟨negativeMark, n.text, rfl, .inr (by decide)⟩
  | false =>
    refine ⟨c, rest, hc, hhead.imp id ?_⟩
    rintro rfl
    exact List.mem_cons_self

theorem endsName_literal {t : Tree} (h : t.HasFinite) : EndsName t.literal := by
  obtain ⟨c, rest, htext, hc⟩ := exists_head_literal h
  rw [htext]
  intro d hd
  cases hd
  rcases hc with hc | hc
  · exact not_isLower_of_isDecimalDigit hc
  · have hall : ∀ c ∈ ['.', negativeMark], ∀ d ∈ lowerForm c, d.isLower = false := by decide
    exact hall c hc

theorem endsName_bracketed (parts : List Text) : EndsName (bracketed parts) := by
  intro c hc
  cases hc
  decide

/-! ## Finding the name -/

variable {σ : Type} {setting : Setting σ} {recur : Recur σ}

theorem application_constant {n : Option Numeral} (hn : ∀ m ∈ n, m.Regular) {k : Constant}
    (hk : k ∈ constants) :
    application recur (Tree.optionalText n ++ k.name.toList) =
      unlessFailed (applyConstant recur (Tree.optionalText n ++ k.name.toList)) := by
  obtain ⟨hlist, hunary⟩ := findFunction_constant hk
  rw [application, takeMultiplier_optional hn (startsWord_constant hk)]
  dsimp only
  rw [hlist, hunary]

theorem application_unary {n : Option Numeral} (hn : ∀ m ∈ n, m.Regular) {f : UnaryFunction}
    (hf : f ∈ unaryFunctions) {argument : Text} (hargument : EndsName argument) :
    application recur (Tree.optionalText n ++ f.name.toList ++ argument) =
      unlessFailed (applyUnary recur f (Tree.optionalText n) argument
        (Tree.optionalText n ++ f.name.toList ++ argument)) := by
  have hword : StartsWord f.name.toList := startsWord_callee (f := .unary f) hf
  have hname := lowered_unaryName hf
  obtain ⟨hlist, hunary⟩ := find?_unaryName hf
  rw [application, List.append_assoc, takeMultiplier_optional hn (hword.append argument)]
  dsimp only
  rw [findListFunction_append hname hargument, hlist, findUnaryFunction_append hname hargument,
    hunary]
  dsimp only
  rw [drop_name]

theorem application_list {n : Option Numeral} (hn : ∀ m ∈ n, m.Regular) {f : ListFunction}
    (hf : f ∈ listFunctions) {argument : Text} (hargument : EndsName argument) :
    application recur (Tree.optionalText n ++ f.name.toList ++ argument) =
      unlessFailed (applyList recur f (Tree.optionalText n) argument
        (Tree.optionalText n ++ f.name.toList ++ argument)) := by
  have hword : StartsWord f.name.toList := startsWord_callee (f := .list f) hf
  have hname := lowered_listName hf
  rw [application, List.append_assoc, takeMultiplier_optional hn (hword.append argument)]
  dsimp only
  rw [findListFunction_append hname hargument, find?_listName hf]
  dsimp only
  rw [drop_name]

/-! ## Nested evaluations -/

/-- Whether a nested evaluation of a tree may start here: the operators below the level of the
tree are skipped. -/
def Entry.Admits : Entry → Tree → Prop
  | .whole, _ => True
  | .operand, _ => True
  | .factorial, t => 5 ≤ t.level
  | .application, t => 6 ≤ t.level

/-- Nested evaluations of trees with so many levels to spend agree with their meaning. -/
structure Reads (levels : Nat) (recur : Recur σ) : Prop where
  agrees : ∀ entry t, t.WellFormed → t.Settled → entry.Admits t →
    Agrees t.denote t.AllFinite (t.reading < levels) (recur entry t.flatText)
  stops : ∀ entry t, Stops IsOne (recur entry t)

theorem Tree.AllFinite.isSome {t : Tree} (h : t.AllFinite) : t.denote.isSome = true := by
  obtain ⟨x, hx, -⟩ := h.hasFinite
  rw [hx]
  rfl

/-- What is expected of what follows a first result is there if it is there at all. -/
theorem isSome_of_bind {α β : Type} {r : Option α} {f : α → Option β} {a : α}
    (h : (r.bind f).isSome = true) (ha : r = some a) : (f a).isSome = true := by
  rw [ha] at h
  exact h

variable {levels : Nat} (hr : Reads levels recur)
include hr

theorem agrees_constant {n : Option Numeral} {k : Constant}
    (hwf : (Tree.constant n k).WellFormed) :
    Agrees (Tree.constant n k).denote (Tree.constant n k).AllFinite
      ((Tree.constant n k).reading ≤ levels) (application recur (Tree.constant n k).flatText) := by
  obtain ⟨hn, hk⟩ := hwf
  have hproduct : ∀ x, Tree.optionalValue n = some x →
      Agrees (σ := σ) (finite? (x * k.value)) (Tree.constant n k).AllFinite True (do
        let result ← requireFinite (x * k.value) (Tree.optionalText n ++ k.name.toList)
        noteUnlessFailed (.constant k.name k.value (Tree.optionalText n ++ k.name.toList))
        return result) := by
    intro x hx
    have hfinite : (Tree.constant n k).AllFinite → (finite? (x * k.value)).isSome = true :=
      fun hfine => isSome_of_bind (f := fun x => finite? (x * k.value)) hfine.isSome hx
    exact (agrees_requireFinite _ hfinite).noted fun _ => .constant k.name k.value _
  show Agrees ((Tree.optionalValue n).bind fun x => finite? (x * k.value)) _ _
    (application recur (Tree.optionalText n ++ k.name.toList))
  rw [application_constant hn hk]
  refine Agrees.guarded ?_
  rw [applyConstant, findConstant_append hk]
  dsimp only
  rw [take_name]
  cases n with
  | none =>
    exact ((Agrees.answer 1.0).finish hproduct).mono id (iff_of_true trivial levels.zero_le)
  | some n =>
    have hempty : (Tree.optionalText (some n)).isEmpty = false :=
      optionalText_some_isEmpty (hn n rfl)
    have hfactor := (hr.agrees .application (.numeral n) (hn n rfl) trivial (le_refl 6)).mono
      (fun hfine : (Tree.constant (some n) k).AllFinite => hfine.of_factor) Iff.rfl
    rw [hempty, if_neg Bool.false_ne_true]
    exact hfactor.finish hproduct

/-! ## Calls with one argument -/

omit hr in
theorem head_literal {a : Tree} (hs : a.HasFinite) :
    a.literal.isEmpty = false ∧ a.literal.head? ≠ some '[' := by
  obtain ⟨c, rest, htext, hc⟩ := exists_head_literal hs
  rw [htext]
  refine ⟨rfl, ?_⟩
  rintro ⟨⟩
  revert hc
  decide

/-- The text of a value reads as the value, as a group would. -/
theorem agrees_literal {a : Tree} (ha : a.WellFormed) (hs : a.HasFinite) {fine : Prop}
    (hfine : fine → a.AllFinite) :
    Agrees a.denote fine (0 < levels) (recur .application a.literal) :=
  (hr.agrees .application (.group a) ha hs (le_refl 6)).mono (fun h => (hfine h).group) Iff.rfl

omit hr in
theorem denote_call (n : Option Numeral) (f : Callee) (arguments : List Tree) :
    (Tree.call n f arguments).denote =
      (Tree.denoteAll arguments).bind fun xs => (f.apply xs).bind (scaled n) := by
  rw [Tree.denote]
  rfl

omit hr in
theorem denote_single (n : Option Numeral) (f : Callee) (a : Tree) :
    (Tree.call n f [a]).denote = a.denote.bind fun x => (f.apply [x]).bind (scaled n) := by
  rw [denote_call, Tree.denoteAll, Tree.denoteAll]
  cases a.denote <;> rfl

theorem agrees_single {n : Option Numeral} {f : Callee} {a : Tree}
    (hwf : (Tree.call n f [a]).WellFormed) (hs : a.HasFinite) :
    Agrees (Tree.call n f [a]).denote (Tree.call n f [a]).AllFinite
      ((Tree.call n f [a]).reading ≤ levels) (application recur (Tree.call n f [a]).flatText) := by
  obtain ⟨hn, hf, -, ha, -⟩ := hwf
  obtain ⟨hempty, hhead⟩ := head_literal hs
  have hargument := agrees_literal hr ha hs fun h : (Tree.call n f [a]).AllFinite =>
    h.of_argument a (List.mem_singleton_self a)
  have hcall : ∀ x, a.denote = some x → (Tree.call n f [a]).AllFinite →
      ((f.apply [x]).bind (scaled n)).isSome = true := by
    intro x hx hfine
    have hsome := hfine.isSome
    rw [denote_single] at hsome
    exact isSome_of_bind (f := fun x => (f.apply [x]).bind (scaled n)) hsome hx
  rw [denote_single]
  cases f with
  | unary f =>
    show Agrees _ _ (0 < levels)
      (application recur (Tree.optionalText n ++ f.name.toList ++ a.literal))
    rw [application_unary hn hf (endsName_literal hs), applyUnary, hempty,
      if_neg Bool.false_ne_true, if_neg (by simpa using hhead)]
    exact (hargument.finish fun x hx => agrees_callUnary hn x _ (hcall x hx)).guarded
  | list f =>
    have hsquare : bracketedList? a.literal = none := by
      rw [bracketedList?, beq_false_of_ne hhead, Bool.false_and, if_neg Bool.false_ne_true]
    show Agrees _ _ (0 < levels)
      (application recur (Tree.optionalText n ++ f.name.toList ++ a.literal))
    rw [application_list hn hf (endsName_literal hs), applyList, hempty,
      if_neg Bool.false_ne_true, hsquare]
    exact (hargument.finish fun x hx => agrees_callList hn [x] _ (hcall x hx)).guarded

/-! ## Calls with a list of arguments -/

omit hr in
theorem covers_semicolon : Tree.Covers (fun c => (c == ';') = false) 0 where
  number c hc := beq_false_of_ne (ne_of_isNumberChar hc (by decide) (by decide))
  name := by decide
  mark := by decide
  operator o _ := by cases o <;> decide

omit hr in
theorem length_denoteAll {ts : List Tree} {xs : List Float} (h : Tree.denoteAll ts = some xs) :
    xs.length = ts.length := by
  induction ts generalizing xs with
  | nil =>
    cases h
    rfl
  | cons t ts ih =>
    rw [Tree.denoteAll, Option.bind_eq_some_iff] at h
    obtain ⟨x, -, h⟩ := h
    obtain ⟨ys, hys, h⟩ := Option.bind_eq_some_iff.mp h
    cases h
    rw [List.length_cons, List.length_cons, ih hys]

omit hr in
/-- Joined and put in brackets, arguments are found again. -/
theorem bracketedList?_bracketed {parts : List Text} (hne : parts ≠ [])
    (h : ∀ p ∈ parts, Sealed (fun c => (c == ';') = false) p) :
    bracketedList? (bracketed parts) = some parts := by
  have hjoin : Sealed (fun _ => True) (Text.join [';'] parts) :=
    Tree.sealed_join rfl trivial fun p hp => (h p hp).mono fun _ _ => trivial
  have hcloser : closingBracket (bracketed parts) = some ((bracketed parts).length - 1) := by
    have hopen : ∀ rest, closingBracketFrom 0 0 ('[' :: rest) = closingBracketFrom 1 1 rest :=
      fun rest => rfl
    have hclose : ∀ index, closingBracketFrom index 1 [']'] = some index := fun index => rfl
    rw [closingBracket, bracketed, List.cons_append, hopen,
      hjoin.closingBracketFrom_append Int.one_pos, hclose]
    simp
    omega
  have hinner : ((bracketed parts).drop 1).dropLast = Text.join [';'] parts := by
    rw [bracketed, List.cons_append, List.drop_succ_cons, List.drop_zero, List.dropLast_concat]
  rw [bracketedList?, hcloser, hinner, splitTopLevel_join rfl rfl hne h]
  simp [bracketed]

theorem agrees_arguments {ts : List Tree} (hwf : ∀ t ∈ ts, t.WellFormed)
    (hs : ∀ t ∈ ts, t.Settled) {fine : Prop} (hfine : fine → ∀ t ∈ ts, t.AllFinite) :
    Agrees (Tree.denoteAll ts) fine (∀ t ∈ ts, t.reading < levels)
      ((ts.map Tree.flatText).mapM (recur .whole)) := by
  induction ts with
  | nil => exact (Agrees.answer []).mono id (iff_of_true trivial (List.forall_mem_nil _))
  | cons t ts ih =>
    have hhead := (hr.agrees .whole t (hwf t List.mem_cons_self) (hs t List.mem_cons_self)
      trivial).mono (fun h : fine => hfine h t List.mem_cons_self) Iff.rfl
    have htail := ih (fun u hu => hwf u (List.mem_cons_of_mem t hu))
      (fun u hu => hs u (List.mem_cons_of_mem t hu))
      fun h u hu => hfine h u (List.mem_cons_of_mem t hu)
    rw [List.map_cons, List.mapM_cons, Tree.denoteAll, List.forall_mem_cons]
    -- after a problem the arguments that are left do nothing
    refine .mono (hhead.bind (fun x s hfailed => ?_) fun x _ => htail.bind (fun xs s _ => ⟨_, rfl⟩)
      fun xs _ => .answer (x :: xs)) id (and_congr_right' (iff_of_eq (and_true _)))
    obtain ⟨xs, hxs, -⟩ := (stops_arguments hr.stops (ts.map Tree.flatText)).idle hfailed
    exact ⟨x :: xs, by rw [bind_of_ok hxs]; rfl⟩

omit hr in
/-- A function of one argument has no value for a list of them. -/
theorem denote_unary_list (n : Option Numeral) (f : UnaryFunction) {arguments : List Tree}
    (hlist : ∀ a, arguments ≠ [a]) : (Tree.call n (.unary f) arguments).denote = none := by
  rw [denote_call]
  cases hxs : Tree.denoteAll arguments with
  | none => rfl
  | some xs =>
    have hsingle : ∀ x, xs ≠ [x] := by
      rintro x rfl
      obtain ⟨a, ha⟩ := List.length_eq_one_iff.mp (length_denoteAll hxs).symm
      exact hlist a ha
    rw [Option.bind_some, Callee.apply]
    · rfl
    · exact hsingle

theorem agrees_list {n : Option Numeral} {f : Callee} {arguments : List Tree}
    (hlist : ∀ a, arguments ≠ [a]) (hwf : (Tree.call n f arguments).WellFormed)
    (hs : ∀ a ∈ arguments, a.Settled) :
    Agrees (Tree.call n f arguments).denote (Tree.call n f arguments).AllFinite
      ((Tree.call n f arguments).reading ≤ levels)
      (application recur (Tree.call n f arguments).flatText) := by
  obtain ⟨hn, hf, hne, hall⟩ := hwf
  rw [Tree.eachWellFormed_iff] at hall
  have hargument : EndsName (bracketed (arguments.map Tree.flatText)) := endsName_bracketed _
  have hempty : (bracketed (arguments.map Tree.flatText)).isEmpty = false := rfl
  have hcall : ∀ xs, Tree.denoteAll arguments = some xs → (Tree.call n f arguments).AllFinite →
      ((f.apply xs).bind (scaled n)).isSome = true := by
    intro xs hxs hfine
    have hsome := hfine.isSome
    rw [denote_call] at hsome
    exact isSome_of_bind (f := fun xs => (f.apply xs).bind (scaled n)) hsome hxs
  rw [Tree.flatText_list hlist, Tree.reading_list hlist]
  cases f with
  | unary f =>
    -- a list stands in square brackets, which a function of one argument refuses
    have hnone := denote_unary_list n f hlist
    have hfine : ¬(Tree.call n (.unary f) arguments).AllFinite := by
      intro h
      have hsome := h.isSome
      rw [hnone] at hsome
      cases hsome
    have hsquare : ((bracketed (arguments.map Tree.flatText)).head? == some '[') = true := rfl
    show Agrees _ _ _ (application recur (Tree.optionalText n ++ f.name.toList ++ _))
    rw [application_unary hn hf hargument, applyUnary, hempty, if_neg Bool.false_ne_true,
      if_pos hsquare]
    exact (Agrees.refuse _ fun h => absurd h hfine).guarded
  | list f =>
    have hparts : bracketedList? (bracketed (arguments.map Tree.flatText)) =
        some (arguments.map Tree.flatText) := by
      refine bracketedList?_bracketed (by simpa using hne) fun p hp => ?_
      obtain ⟨a, ha, rfl⟩ := List.mem_map.mp hp
      exact Tree.sealed_flatText covers_semicolon (hall a ha) (hs a ha) (Tree.level_pos _)
    have hany := Tree.any_isEmpty_flatTexts hall hs
    show Agrees _ _ _ (application recur (Tree.optionalText n ++ f.name.toList ++ _))
    rw [application_list hn hf hargument, applyList, hempty, if_neg Bool.false_ne_true, hparts,
      denote_call]
    dsimp only
    rw [hany, if_neg Bool.false_ne_true]
    have hvalues := agrees_arguments hr hall hs
      fun h : (Tree.call n (.list f) arguments).AllFinite => h.of_argument
    exact ((hvalues.finish fun xs hxs => agrees_callList hn xs _ (hcall xs hxs)).guarded).mono id
      Tree.readingEach_le_iff.symm

/-! ## The last tier -/

/-- **The last tier** agrees with the meaning of everything that is no operation. -/
theorem agrees_application {t : Tree} (hwf : t.WellFormed) (hs : t.Settled) (hlevel : 6 ≤ t.level) :
    Agrees t.denote t.AllFinite (t.reading ≤ levels) (application recur t.flatText) := by
  have hnothing : True ↔ 0 ≤ levels := iff_of_true trivial levels.zero_le
  cases t with
  | numeral n =>
    show Agrees _ _ _ (application recur (signedNumeral false n))
    rw [application_signedNumeral hwf]
    exact (agrees_readLiteral hwf fun h => h.isSome).guarded.mono id hnothing
  | constant n k => exact agrees_constant hr hwf
  | group t =>
    obtain ⟨x, hx, hfinite⟩ := hs
    obtain ⟨negative, n, htext, hn, hvalue⟩ := exists_numeral_of_isFinite hfinite
    have hflat : (Tree.group t).flatText = signedNumeral negative n :=
      (Tree.literal_of_denote hx).trans htext
    have hdenote : (Tree.group t).denote = some x := hx
    rw [hflat, hdenote, application_signedNumeral hn, readLiteral_signedNumeral hn, hvalue]
    exact (Agrees.answer x).guarded.mono id hnothing
  | call n f arguments =>
    rcases Tree.single_or_list arguments with ⟨a, rfl⟩ | hlist
    · exact agrees_single hr hwf hs
    · exact agrees_list hr hlist hwf ((Tree.settled_list hlist n f).mp hs)
  | factorial t => exact absurd hlevel (by simp [Tree.level])
  | binary o l r =>
    have ho : 6 ≤ o.level := hlevel
    have hle := o.level_le
    omega
  | signed negative t => exact absurd hlevel (by simp [Tree.level])

end Reckoner

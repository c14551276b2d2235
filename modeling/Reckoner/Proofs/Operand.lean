import Reckoner.Proofs.Number.Literal
import Reckoner.Proofs.Split

/-!
# Numbers as operands

A regular numeral, with or without the sign of a written-back number, passes through all
tiers in one piece and is read as what it denotes. So the text that stands for the value of a
group is as good as the value.
-/

namespace Reckoner

open Eval

/-! ## Characters of a number -/

/-- The characters that a number is written with. -/
def IsNumberChar (c : Char) : Prop := isDecimalDigit c = true ∨ c ∈ ['.', 'E', '+', '-', negativeMark]

/-- The characters that a number may end with. -/
def IsNumberEnd (c : Char) : Prop := isDecimalDigit c = true ∨ c = '.'

variable {n : Numeral} (hn : n.Regular) (negative : Bool)
include hn

theorem isNumberChar_of_mem_text : ∀ c ∈ n.text, IsNumberChar c := by
  intro c hc
  rcases List.mem_append.mp hc with hc | hc
  · rcases hn.significand_char c hc with hc | rfl
    · exact .inl hc
    · exact .inr (by decide)
  · rcases hn.exponent with he | ⟨rest, he, hrest⟩
    · rw [he] at hc
      cases hc
    · rw [he] at hc
      rcases List.mem_cons.mp hc with rfl | hc
      · exact .inr (by decide)
      · rcases hrest.char c hc with hc | rfl | rfl
        · exact .inl hc
        · exact .inr (by decide)
        · exact .inr (by decide)

theorem isNumberChar_of_mem : ∀ c ∈ signedNumeral negative n, IsNumberChar c := by
  intro c hc
  cases negative with
  | false => exact isNumberChar_of_mem_text hn c hc
  | true =>
    rcases List.mem_cons.mp hc with rfl | hc
    · exact .inr (by decide)
    · exact isNumberChar_of_mem_text hn c hc

omit hn in
/-- A character that no number is written with. -/
theorem ne_of_isNumberChar {c d : Char} (hc : IsNumberChar c) (hd : isDecimalDigit d = false)
    (hm : d ∉ ['.', 'E', '+', '-', negativeMark]) : c ≠ d := by
  rintro rfl
  rcases hc with hc | hc
  · rw [hd] at hc
    cases hc
  · exact hm hc

omit hn in
theorem isBracket_of_isNumberChar {c : Char} (hc : IsNumberChar c) : isBracket c = false := by
  have h1 := ne_of_isNumberChar (d := '(') hc (by decide) (by decide)
  have h2 := ne_of_isNumberChar (d := ')') hc (by decide) (by decide)
  have h3 := ne_of_isNumberChar (d := '[') hc (by decide) (by decide)
  have h4 := ne_of_isNumberChar (d := ']') hc (by decide) (by decide)
  simp [isBracket, isOpener, isCloser, h1, h2, h3, h4]

/-- A number ends with a digit or the point. -/
theorem signedNumeral_eq_concat :
    ∃ rest c, signedNumeral negative n = rest ++ [c] ∧ IsNumberEnd c := by
  have htext : ∃ rest c, n.text = rest ++ [c] ∧ IsNumberEnd c := by
    rcases hn.exponent with he | ⟨rest, he, sign, digits, rfl, -, hne, hd⟩
    · rw [Numeral.text, he, List.append_nil]
      rcases hn.fraction with hf | ⟨places, hf, hp⟩
      · have hwhole : n.whole ≠ [] := by simpa [hf] using hn.nonempty
        obtain ⟨rest, c, hc⟩ := List.eq_nil_or_concat n.whole |>.resolve_left hwhole
        refine ⟨rest, c, by rw [hf, List.append_nil, hc, List.concat_eq_append], .inl (hn.whole c ?_)⟩
        rw [hc]
        simp
      · rcases List.eq_nil_or_concat places with rfl | ⟨rest, c, hc⟩
        · exact ⟨n.whole, '.', by rw [hf], .inr rfl⟩
        · refine ⟨n.whole ++ '.' :: rest, c, ?_, .inl (hp c ?_)⟩
          · rw [hf, hc]
            simp
          · rw [hc]
            simp
    · obtain ⟨rest, c, hc⟩ := List.eq_nil_or_concat digits |>.resolve_left hne
      refine ⟨n.whole ++ n.fraction ++ 'E' :: (sign ++ rest), c, ?_, .inl (hd c ?_)⟩
      · rw [Numeral.text, he, hc]
        simp
      · rw [hc]
        simp
  obtain ⟨rest, c, h, hc⟩ := htext
  cases negative with
  | false => exact ⟨rest, c, h, hc⟩
  | true => exact ⟨negativeMark :: rest, c, by rw [signedNumeral, if_pos rfl, h]; rfl, hc⟩

theorem lastOf_signedNumeral (previous : Option Char) :
    ∃ c, lastOf previous (signedNumeral negative n) = some c ∧ IsNumberEnd c := by
  obtain ⟨rest, c, h, hc⟩ := signedNumeral_eq_concat hn negative
  exact ⟨c, by rw [h, lastOf_append]; rfl, hc⟩

omit hn in
theorem not_isSignLead_of_isNumberEnd {c : Char} (hc : IsNumberEnd c) : isSignLead c = false := by
  rw [isSignLead, List.contains_eq_mem, decide_eq_false]
  intro hm
  have hall : ∀ d ∈ ['+', '-', '*', '/', '^', '%', 'd', 'E'], isDecimalDigit d = false ∧ d ≠ '.' := by
    decide
  rcases hc with hc | rfl
  · rw [(hall c hm).1] at hc
    cases hc
  · exact (hall _ hm).2 rfl

/-! ## Nothing splits a number -/

omit hn in
theorem sealed_of_isNumberChar {P : Char → Prop} {t : Text} (h : ∀ c ∈ t, IsNumberChar c)
    (hP : ∀ c ∈ t, P c) : Sealed P t :=
  .of_forall fun c hc => ⟨isBracket_of_isNumberChar (h c hc), hP c hc⟩

theorem sealed_signedNumeral {P : Char → Prop} (hP : ∀ c, IsNumberChar c → P c) :
    Sealed P (signedNumeral negative n) :=
  sealed_of_isNumberChar (isNumberChar_of_mem hn negative) fun c hc =>
    hP c (isNumberChar_of_mem hn negative c hc)

/-- The sign of an exponent is no operator, since its mark is before it. -/
theorem unsplit_exponent (previous : Option Char) :
    Unsplit Tier.additive.symbols Tier.additive.signed 0 previous n.exponent := by
  have hdigits : ∀ {digits : Text}, (∀ c ∈ digits, isDecimalDigit c = true) → ∀ previous,
      Unsplit Tier.additive.symbols Tier.additive.signed 0 previous digits := by
    intro digits hd previous
    refine (Sealed.of_forall fun c hc => ⟨isBracket_of_isNumberChar (.inl (hd c hc)), ?_⟩).unsplit _
    intro hm
    have hall : ∀ d ∈ Tier.additive.symbols, isDecimalDigit d = false := by decide
    exact Bool.false_ne_true ((hall c hm).symm.trans (hd c hc))
  rcases hn.exponent with he | ⟨rest, he, sign, digits, rfl, hs, -, hd⟩
  · rw [he]
    exact unsplit_nil _ _
  · rw [he]
    refine .cons (fun _ => isSplit_of_not_mem (by decide)) ?_
    rcases hs with rfl | rfl | rfl
    · exact hdigits hd _
    · exact .cons (fun _ => rfl) (hdigits hd _)
    · exact .cons (fun _ => rfl) (hdigits hd _)

theorem unsplit_additive_signedNumeral (previous : Option Char) :
    Unsplit Tier.additive.symbols Tier.additive.signed 0 previous (signedNumeral negative n) := by
  have hsealed : Sealed (· ∉ Tier.additive.symbols) (n.whole ++ n.fraction) := by
    refine .of_forall fun c hc => ?_
    have hall : ∀ d ∈ Tier.additive.symbols, isDecimalDigit d = false ∧ d ≠ '.' := by decide
    rcases hn.significand_char c hc with h | rfl
    · exact ⟨isBracket_of_isNumberChar (.inl h), fun hm =>
        Bool.false_ne_true ((hall c hm).1.symm.trans h)⟩
    · exact ⟨rfl, by decide⟩
  have htext : ∀ previous, Unsplit Tier.additive.symbols Tier.additive.signed 0 previous n.text := by
    intro previous
    refine .append (hsealed.unsplit previous) ?_
    rw [hsealed.depthOver_eq]
    exact unsplit_exponent hn _
  cases negative with
  | false => exact htext previous
  | true => exact .cons (fun _ => isSplit_of_not_mem (by decide)) (htext _)

/-- The characters of the tiers without signs are not those of a number. -/
theorem unsplit_signedNumeral {tier : Tier} (ht : tier ∈ [.multiplicative, .powers, .diceAndModulo])
    (previous : Option Char) :
    Unsplit tier.symbols tier.signed 0 previous (signedNumeral negative n) := by
  refine (sealed_signedNumeral hn negative fun c hc hm => ?_).unsplit previous
  have hall : ∀ d ∈ tier.symbols, isDecimalDigit d = false ∧
      d ∉ ['.', 'E', '+', '-', negativeMark] := by
    revert ht
    simp only [List.mem_cons, List.not_mem_nil, or_false]
    rintro (rfl | rfl | rfl) <;> decide
  exact ne_of_isNumberChar hc (hall c hm).1 (hall c hm).2 rfl

/-! ## Reading a number -/

theorem takeNegative_signedNumeral_append (tail : Text) :
    takeNegative (signedNumeral negative n ++ tail) = (negative, n.text ++ tail) := by
  cases negative with
  | true => rfl
  | false =>
    obtain ⟨c, rest, htext, hc⟩ := text_of_regular_eq_cons hn
    have hmark : (c == negativeMark) = false := by
      refine beq_false_of_ne ?_
      rintro rfl
      revert hc
      decide
    rw [signedNumeral, if_neg Bool.false_ne_true, htext, List.cons_append, takeNegative, hmark]
    rfl

theorem takeNegative_signedNumeral :
    takeNegative (signedNumeral negative n) = (negative, n.text) := by
  simpa using takeNegative_signedNumeral_append hn negative []

/-- A number in front of something that cannot continue it is all of the multiplier. -/
theorem takeMultiplier_append {tail : Text} (ht : Detached (· == 'E') tail) :
    takeMultiplier (signedNumeral negative n ++ tail) = (signedNumeral negative n, tail) := by
  rw [takeMultiplier, takeNegative_signedNumeral_append hn]
  dsimp only
  rw [scan_append_of_regular rfl hn ht]
  rfl

theorem takeMultiplier_signedNumeral :
    takeMultiplier (signedNumeral negative n) = (signedNumeral negative n, []) := by
  simpa using takeMultiplier_append hn negative (detached_nil _)

variable {σ : Type}

/-- A number is read as the nearest double. -/
theorem readLiteral_signedNumeral :
    (readLiteral (signedNumeral negative n) : Eval σ Float) =
      match n.toDouble? negative with
      | none => refuse (.tooLarge (signedNumeral negative n))
      | some x => return x := by
  cases hvalue : n.toDouble? negative <;>
    simp only [readLiteral, takeNegative_signedNumeral hn, ofText?_of_regular hn, hvalue]

omit hn in
/-- No constant's name is written with the characters of a number. -/
theorem findConstant_of_isNumberChar {t : Text} (h : ∀ c ∈ t, IsNumberChar c) :
    findConstant t = none := by
  have hname : ∀ k ∈ constants, ∃ d ∈ k.name.toList, isDecimalDigit d = false ∧
      d ∉ ['.', 'E', '+', '-', negativeMark] := by
    simp only [constants, List.forall_mem_cons]
    decide
  rw [findConstant, List.find?_eq_none]
  intro k hk hsuffix
  obtain ⟨d, hd, hdigit, hmem⟩ := hname k hk
  have hdt : d ∈ t := (List.isSuffixOf_iff_suffix.mp hsuffix).subset hd
  exact ne_of_isNumberChar (h d hdt) hdigit hmem rfl

omit hn in
theorem findListFunction_nil : findListFunction [] = none := rfl

omit hn in
theorem findUnaryFunction_nil : findUnaryFunction [] = none := rfl

theorem application_signedNumeral (recur : Recur σ) :
    application recur (signedNumeral negative n) =
      unlessFailed (readLiteral (signedNumeral negative n)) := by
  rw [application, takeMultiplier_signedNumeral hn]
  dsimp only
  rw [findListFunction_nil, findUnaryFunction_nil]
  dsimp only
  rw [applyConstant, findConstant_of_isNumberChar (isNumberChar_of_mem hn negative)]

/-! ## A number in every tier -/

variable {setting : Setting σ} {recur : Recur σ}

theorem factorialTier_signedNumeral :
    factorialTier recur (signedNumeral negative n) =
      unlessFailed (readLiteral (signedNumeral negative n)) := by
  obtain ⟨rest, c, htext, hc⟩ := signedNumeral_eq_concat hn negative
  have hlast : (signedNumeral negative n).getLast? ≠ some '!' := by
    rw [htext, List.getLast?_concat]
    intro h
    cases h
    revert hc
    simp only [IsNumberEnd]
    decide
  rw [factorialTier, if_pos (by simpa using hlast), application_signedNumeral hn,
    unlessFailed_unlessFailed]

theorem operators_signedNumeral :
    operators setting recur (signedNumeral negative n) =
      unlessFailed (readLiteral (signedNumeral negative n)) := by
  have hsplit : ∀ tier ∈ [Tier.multiplicative, .powers, .diceAndModulo],
      splitPoints tier.symbols tier.signed (signedNumeral negative n) = [] :=
    fun tier ht => unsplit_signedNumeral hn negative ht none 0
  rw [operators, splitTier_of_unsplit (unsplit_additive_signedNumeral hn negative none 0),
    splitTier_of_unsplit (hsplit _ (by simp)), splitTier_of_unsplit (hsplit _ (by simp)),
    splitTier_of_unsplit (hsplit _ (by simp)), factorialTier_signedNumeral hn]
  simp only [unlessFailed_unlessFailed]

theorem groupsThenOperators_signedNumeral :
    groupsThenOperators setting recur (signedNumeral negative n) =
      unlessFailed (readLiteral (signedNumeral negative n)) := by
  have hnot : ∀ d, isDecimalDigit d = false → d ∉ ['.', 'E', '+', '-', negativeMark] →
      d ∉ signedNumeral negative n := fun d hd hm hmem =>
    ne_of_isNumberChar (isNumberChar_of_mem hn negative d hmem) hd hm rfl
  have hsquare : (signedNumeral negative n).count '[' = (signedNumeral negative n).count ']' := by
    rw [List.count_eq_zero_of_not_mem (hnot '[' (by decide) (by decide)),
      List.count_eq_zero_of_not_mem (hnot ']' (by decide) (by decide))]
  rw [groupsThenOperators, resolveGroups_of_no_group (hnot '(' (by decide) (by decide))
    (hnot ')' (by decide) (by decide)) hsquare, pure_bind, operators_signedNumeral hn,
    unlessFailed_unlessFailed]

/-- Wherever an evaluation starts, a number is read. -/
theorem step_signedNumeral (entry : Entry) :
    Eval.step setting recur entry (signedNumeral negative n) =
      unlessFailed (readLiteral (signedNumeral negative n)) := by
  cases entry with
  | whole => exact groupsThenOperators_signedNumeral hn negative
  | operand => exact operators_signedNumeral hn negative
  | factorial => exact factorialTier_signedNumeral hn negative
  | application => exact application_signedNumeral hn negative recur

/-! ## Literals -/

omit hn

theorem isNumberChar_of_mem_literalText {x : Float} (hx : x.isFinite = true) :
    ∀ c ∈ literalText x, IsNumberChar c := by
  obtain ⟨negative, n, htext, hn, -⟩ := exists_numeral_of_isFinite hx
  rw [htext]
  exact isNumberChar_of_mem hn negative

/-- What a nested evaluation leaves behind that only reads a number: a greater depth may have
been reached. -/
def visited (s : Progress σ) : Progress σ := atDepth s.depth (deeper s)

theorem step_literalText {x : Float} (hx : x.isFinite = true) (entry : Entry) {s : Progress σ}
    (hs : s.failed = false) : Eval.step setting recur entry (literalText x) s = .ok x s := by
  obtain ⟨negative, n, htext, hn, hvalue⟩ := exists_numeral_of_isFinite hx
  rw [htext, step_signedNumeral hn, unlessFailed_of_not_failed hs, readLiteral_signedNumeral hn,
    hvalue]
  rfl

/-- **Literals.** The text of a finite double evaluates to that double, at every level. -/
theorem descend_literalText {x : Float} (hx : x.isFinite = true) (levels : Nat) (entry : Entry)
    {s : Progress σ} (hs : s.failed = false) :
    descend setting (levels + 1) entry (literalText x) s = .ok x (visited s) := by
  have hdeeper : (deeper s).failed = false := hs
  rw [descend, unlessFailed_of_not_failed hs, nested_apply, step_literalText hx entry hdeeper]
  rfl

theorem operand_literalText {x : Float} (hx : x.isFinite = true) (levels : Nat) (neutral : Float)
    {s : Progress σ} (hs : s.failed = false) :
    operand (descend setting (levels + 1)) neutral (literalText x) s = .ok x (visited s) := by
  have hne : literalText x ≠ [] := by
    obtain ⟨c, hlast, -⟩ := exists_last_literalText hx
    exact List.ne_nil_of_mem (List.mem_of_getLast? hlast)
  rw [operand_of_ne_nil _ _ hne, descend_literalText hx levels .operand hs]

/-- No tier finds a split point in a literal: the sign of a written-back number is the mark, and
the sign of an exponent is behind its mark. -/
theorem splitPoints_literalText {x : Float} (hx : x.isFinite = true) :
    ∀ tier ∈ Tier.all, splitPoints tier.symbols tier.signed (literalText x) = [] := by
  obtain ⟨negative, n, htext, hn, -⟩ := exists_numeral_of_isFinite hx
  rw [htext]
  intro tier ht
  rcases List.mem_cons.mp ht with rfl | ht
  · exact unsplit_additive_signedNumeral hn negative none 0
  · exact unsplit_signedNumeral hn negative ht none 0

/-- What groups and argument lists are told by does not occur in a literal. -/
theorem no_separator_of_mem_literalText {x : Float} (hx : x.isFinite = true) :
    ∀ c ∈ literalText x, isBracket c = false ∧ c ≠ ';' ∧ c ≠ ',' := fun c hc =>
  have hnumber := isNumberChar_of_mem_literalText hx c hc
  ⟨isBracket_of_isNumberChar hnumber, ne_of_isNumberChar hnumber (by decide) (by decide),
    ne_of_isNumberChar hnumber (by decide) (by decide)⟩

/-- **Round trip of literals.** The text that a finite double is written back with evaluates to
this very double, a negative zero included, wherever at least one level may be spent: no entry
is made and no die is drawn, only the depth that was reached may be greater. Nothing in the text
can be mistaken for a group, for a list of arguments or for an operator. -/
theorem evaluate_literalText (setting : Setting σ) (hdepth : 1 ≤ setting.limits.maxDepth)
    {x : Float} (hx : x.isFinite = true) {s : Progress σ} (hs : s.failed = false) :
    evaluate setting (literalText x) s = .ok x { s with deepest := max s.deepest (s.depth + 1) } ∧
      (∀ c ∈ literalText x, isBracket c = false ∧ c ≠ ';' ∧ c ≠ ',') ∧
      ∀ tier ∈ Tier.all, splitPoints tier.symbols tier.signed (literalText x) = [] := by
  refine ⟨?_, no_separator_of_mem_literalText hx, splitPoints_literalText hx⟩
  obtain ⟨levels, hlevels⟩ : ∃ levels, setting.limits.maxDepth.toNat = levels + 1 :=
    Nat.exists_eq_succ_of_ne_zero (by omega)
  rw [evaluate, topmost, hlevels]
  exact descend_literalText hx levels .whole hs

/-- One level is enough for a negative zero, which keeps its sign. -/
theorem evaluate_literalText_negativeZero :
    literalText (-0.0) = ['_', '0', '.', '0'] ∧
      evaluate { source := Feed.source, limits := { maxDepth := 1 } } ['_', '0', '.', '0']
          ({ dice := .high } : Progress Feed) =
        .ok (-0.0) { dice := .high, deepest := 1 } := by
  have htext : literalText (-0.0) = ['_', '0', '.', '0'] := by decide +kernel
  refine ⟨htext, ?_⟩
  have h := (evaluate_literalText { source := Feed.source, limits := { maxDepth := 1 } } (by decide)
    (x := -0.0) (by decide +kernel) (s := { dice := .high }) rfl).1
  rw [htext] at h
  exact h

/-! ## Scanned numbers -/

theorem isNumberChar_of_mem_takeWhile {t : Text} :
    ∀ c ∈ t.takeWhile isDecimalDigit, IsNumberChar c := fun c hc =>
  .inl (List.all_eq_true.mp List.all_takeWhile c hc)

theorem isNumberChar_of_mem_scanSignificand {t whole fraction rest : Text}
    (h : Numeral.scanSignificand t = some (whole, fraction, rest)) :
    ∀ c ∈ whole ++ fraction, IsNumberChar c := by
  intro c hc
  unfold Numeral.scanSignificand at h
  dsimp only at h
  split at h
  · split_ifs at h
    cases h
    simp only [List.mem_append, List.mem_cons] at hc
    rcases hc with hc | rfl | hc
    · exact isNumberChar_of_mem_takeWhile c hc
    · exact .inr (by decide)
    · exact isNumberChar_of_mem_takeWhile c hc
  · split_ifs at h
    cases h
    rw [List.append_nil] at hc
    exact isNumberChar_of_mem_takeWhile c hc

theorem isNumberChar_of_mem_takeSign (t : Text) : ∀ c ∈ (Numeral.takeSign t).1, IsNumberChar c := by
  intro c hc
  unfold Numeral.takeSign at hc
  split at hc
  · exact List.mem_singleton.mp hc ▸ .inr (by decide)
  · exact List.mem_singleton.mp hc ▸ .inr (by decide)
  · cases hc

theorem isNumberChar_of_mem_scanExponent (isMark : Char → Bool) (t : Text) :
    ∀ c ∈ (Numeral.scanExponent isMark t).1, IsNumberChar c ∨ isMark c = true := by
  intro c hc
  unfold Numeral.scanExponent at hc
  split at hc
  · next mark body =>
    dsimp only at hc
    split_ifs at hc with hm
    · rw [Bool.and_eq_true] at hm
      simp only [List.mem_cons, List.mem_append] at hc
      rcases hc with rfl | hc | hc
      · exact .inr hm.1
      · exact .inl (isNumberChar_of_mem_takeSign _ c hc)
      · exact .inl (isNumberChar_of_mem_takeWhile c hc)
    · cases hc
  · cases hc

/-- What is scanned has the characters of a number and the mark of the exponent. -/
theorem isNumberChar_of_mem_scan {isMark : Char → Bool} {t rest : Text} {n : Numeral}
    (h : Numeral.scan isMark t = some (n, rest)) :
    ∀ c ∈ n.text, IsNumberChar c ∨ isMark c = true := by
  obtain ⟨⟨whole, fraction, tail⟩, hsignificand, hexponent⟩ := Option.map_eq_some_iff.mp h
  simp only [Prod.mk.injEq] at hexponent
  obtain ⟨rfl, -⟩ := hexponent
  intro c hc
  rcases List.mem_append.mp hc with hc | hc
  · exact .inl (isNumberChar_of_mem_scanSignificand hsignificand c hc)
  · exact isNumberChar_of_mem_scanExponent isMark tail c hc

theorem isNumberChar_negativeMark : IsNumberChar negativeMark := .inr (by decide)

/-- A text that is read as a number is written with its characters, and `e` may mark the
exponent. -/
theorem isNumberChar_of_ofText {t : Text} {n : Numeral}
    (h : Numeral.ofText? (takeNegative t).2 = some n) : ∀ c ∈ t, IsNumberChar c ∨ c = 'e' := by
  intro c hc
  rw [← sign_append_takeNegative t, List.mem_append] at hc
  rcases hc with hc | hc
  · split_ifs at hc
    · rw [List.mem_singleton.mp hc]
      exact .inl isNumberChar_negativeMark
    · cases hc
  · have htext := Numeral.text_of_ofText h
    unfold Numeral.ofText? at h
    split at h
    · next m hscan =>
      cases h
      rcases isNumberChar_of_mem_scan hscan c (htext ▸ hc) with hnumber | hmark
      · exact .inl hnumber
      · rw [Bool.or_eq_true, beq_iff_eq, beq_iff_eq] at hmark
        rcases hmark with rfl | rfl
        · exact .inr rfl
        · exact .inl (.inr (by decide))
    · cases h

/-- A multiplier is written with the characters of a number: only `E` marks its exponent. -/
theorem isNumberChar_of_mem_multiplier {t : Text} :
    ∀ c ∈ (takeMultiplier t).1, IsNumberChar c := by
  unfold takeMultiplier
  dsimp only
  split
  · next n rest hscan =>
    have hnumber : ∀ c ∈ n.text, IsNumberChar c := by
      intro c hc
      rcases isNumberChar_of_mem_scan hscan c hc with hnumber | hmark
      · exact hnumber
      · rw [eq_of_beq hmark]
        exact .inr (by decide)
    split_ifs
    · exact List.forall_mem_cons.mpr ⟨isNumberChar_negativeMark, hnumber⟩
    · exact hnumber
  · exact fun c hc => absurd hc List.not_mem_nil

end Reckoner

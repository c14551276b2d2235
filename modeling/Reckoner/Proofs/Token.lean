import Reckoner.Proofs.Operand

/-!
# Numerals among other text

A numeral that is written between two texts may run on into them: together with their nearest
characters it may be a longer numeral. For the literal of a double the neighbours with which
this happens are listed (`Joins`), and with all others it stays a token of its own
(`atomic_literalText`).
-/

namespace Reckoner

/-! ## The shape of numerals -/

/-- A numeral as it may be read, with either mark of an exponent. -/
structure Numeral.Shaped (n : Numeral) : Prop where
  significand : Numeral.Regular { n with exponent := [] }
  exponent : n.exponent = [] ∨
    ∃ mark rest, n.exponent = mark :: rest ∧ (mark = 'e' ∨ mark = 'E') ∧ IsExponent rest

namespace Numeral

theorem Regular.significand {n : Numeral} (hn : n.Regular) :
    Numeral.Regular { n with exponent := [] } :=
  ⟨hn.whole, hn.fraction, hn.nonempty, .inl rfl⟩

theorem Regular.shaped {n : Numeral} (hn : n.Regular) : n.Shaped where
  significand := hn.significand
  exponent := hn.exponent.imp id fun ⟨rest, he, hrest⟩ => ⟨'E', rest, he, .inr rfl, hrest⟩

theorem regular_of_scanSignificand {t whole fraction rest : Text}
    (h : scanSignificand t = some (whole, fraction, rest)) :
    Numeral.Regular { whole, fraction, exponent := [] } := by
  have hdigits : ∀ u : Text, ∀ c ∈ u.takeWhile isDecimalDigit, isDecimalDigit c = true :=
    fun u c hc => List.all_eq_true.mp List.all_takeWhile c hc
  simp only [scanSignificand] at h
  split at h
  · next places _ =>
    split_ifs at h with hempty
    cases h
    refine ⟨hdigits t, .inr ⟨_, rfl, hdigits places⟩, ?_, .inl rfl⟩
    by_contra hnone
    simp only [not_or, not_not, List.length_cons, not_lt] at hnone
    have hplaces : places.takeWhile isDecimalDigit = [] := List.eq_nil_of_length_eq_zero (by omega)
    exact hempty (by simp only [hnone.1, hplaces, List.isEmpty_nil, Bool.and_self])
  · split_ifs at h with hempty
    cases h
    exact ⟨hdigits t, .inl rfl, .inl fun hnil => hempty (List.isEmpty_iff.mpr hnil), .inl rfl⟩

/-- What is scanned as an exponent is nothing, or a mark and what follows it. -/
theorem isExponent_of_scanExponent (isMark : Char → Bool) (t : Text) :
    (scanExponent isMark t).1 = [] ∨ ∃ mark rest, (scanExponent isMark t).1 = mark :: rest ∧
      isMark mark = true ∧ IsExponent rest := by
  cases t with
  | nil => exact .inl rfl
  | cons mark rest =>
    rw [scanExponent]
    dsimp only
    split_ifs with h
    · rw [Bool.and_eq_true, Bool.not_eq_true', List.isEmpty_eq_false_iff] at h
      refine .inr ⟨mark, _, rfl, h.1, _, _, rfl, ?_, h.2, fun c hc =>
        List.all_eq_true.mp List.all_takeWhile c hc⟩
      unfold takeSign
      split <;> simp
    · exact .inl rfl

theorem shaped_of_ofText {t : Text} {n : Numeral} (h : ofText? t = some n) : n.Shaped := by
  unfold ofText? at h
  split at h
  · next m hscan =>
    cases h
    obtain ⟨⟨whole, fraction, tail⟩, hs, he⟩ := Option.map_eq_some_iff.mp hscan
    simp only [Prod.mk.injEq] at he
    obtain ⟨rfl, -⟩ := he
    refine ⟨regular_of_scanSignificand hs, (isExponent_of_scanExponent _ tail).imp id ?_⟩
    rintro ⟨mark, rest, he, hmark, hrest⟩
    exact ⟨mark, rest, he, by simpa using hmark, hrest⟩
  · cases h

theorem ofText?_of_shaped {n : Numeral} (hn : n.Shaped) : ofText? n.text = some n := by
  have hhead : ∀ c, n.exponent.head? = some c → isDecimalDigit c = false ∧ c ≠ '.' := by
    intro c hc
    rcases hn.exponent with he | ⟨mark, rest, he, hmark, -⟩
    · rw [he] at hc
      cases hc
    · rw [he] at hc
      cases hc
      rcases hmark with rfl | rfl <;> decide
  have hexponent : scanExponent (fun c => c == 'e' || c == 'E') n.exponent = (n.exponent, []) := by
    rcases hn.exponent with he | ⟨mark, rest, he, hmark, hrest⟩
    · rw [he]
      rfl
    · have hmark : (mark == 'e' || mark == 'E') = true := by simpa using hmark
      have hscan : scanExponent (fun c => c == 'e' || c == 'E') (mark :: rest ++ []) =
          (mark :: rest, []) := scanExponent_append_of_isExponent hmark hrest (by simp)
      rwa [List.append_nil, ← he] at hscan
  have hsignificand := scanSignificand_append_of_regular hn.significand
    fun c hc => ⟨(hhead c hc).1, fun _ => (hhead c hc).2⟩
  rw [ofText?, scan, text, hsignificand, Option.map_some]
  dsimp only
  rw [hexponent]

/-! ## What may follow what -/

/-- Behind a character other than a digit no point follows in a numeral, and no mark either if
that character is no point. -/
def MayPrecede (a b : Char) : Prop :=
  isDecimalDigit a = false → b ≠ '.' ∧ (a ≠ '.' → b ≠ 'E')

theorem ne_of_isDecimalDigit {c d : Char} (hc : isDecimalDigit c = true)
    (hd : isDecimalDigit d = false) : c ≠ d := by
  rintro rfl
  rw [hc] at hd
  cases hd

/-- What a numeral has in its exponent. -/
theorem Shaped.exponent_char {n : Numeral} (hn : n.Shaped) :
    ∀ c ∈ n.exponent, isDecimalDigit c = true ∨ c ∈ ['+', '-', 'e', 'E'] := by
  intro c hc
  rcases hn.exponent with he | ⟨mark, rest, he, hmark, hrest⟩
  · rw [he] at hc
    cases hc
  · rw [he] at hc
    rcases List.mem_cons.mp hc with rfl | hc
    · rcases hmark with rfl | rfl <;> exact .inr (by decide)
    · rcases hrest.char c hc with hc | rfl | rfl
      · exact .inl hc
      · exact .inr (by decide)
      · exact .inr (by decide)

theorem Shaped.pairwise {n : Numeral} (hn : n.Shaped) : n.text.Pairwise MayPrecede := by
  have hdigit : ∀ {a b}, isDecimalDigit a = true → MayPrecede a b := by
    intro a b ha hnot
    rw [ha] at hnot
    cases hnot
  have hfollows : ∀ {a b}, isDecimalDigit b = true ∨ b = '+' ∨ b = '-' → MayPrecede a b := by
    intro a b hb _
    rcases hb with hb | rfl | rfl
    · exact ⟨ne_of_isDecimalDigit hb (by decide), fun _ => ne_of_isDecimalDigit hb (by decide)⟩
    · exact ⟨by decide, fun _ => by decide⟩
    · exact ⟨by decide, fun _ => by decide⟩
  have hpoint : ∀ {b}, b ≠ '.' → MayPrecede '.' b := fun hb _ => ⟨hb, fun hne => absurd rfl hne⟩
  rw [text, List.pairwise_append]
  refine ⟨?_, ?_, fun a ha b hb => ?_⟩
  · rw [List.pairwise_append]
    refine ⟨List.pairwise_of_forall_mem_list fun a ha _ _ => hdigit (hn.significand.whole a ha),
      ?_, fun a ha _ _ => hdigit (hn.significand.whole a ha)⟩
    rcases hn.significand.fraction with hf | ⟨places, hf, hplaces⟩
    · rw [show n.fraction = [] from hf]
      exact .nil
    · rw [show n.fraction = '.' :: places from hf]
      exact .cons (fun b hb => hfollows (.inl (hplaces b hb)))
        (List.pairwise_of_forall_mem_list fun _ _ b hb => hfollows (.inl (hplaces b hb)))
  · rcases hn.exponent with he | ⟨mark, rest, he, -, hrest⟩
    · rw [he]
      exact .nil
    · rw [he]
      have hchars := hrest.char
      exact .cons (fun b hb => hfollows (hchars b hb))
        (List.pairwise_of_forall_mem_list fun _ _ b hb => hfollows (hchars b hb))
  · rcases hn.significand.significand_char a ha with ha | rfl
    · exact hdigit ha
    · refine hpoint ?_
      rcases hn.exponent_char b hb with hb | hb
      · exact ne_of_isDecimalDigit hb (by decide)
      · rintro rfl
        revert hb
        decide

theorem Shaped.not_mem_negativeMark {n : Numeral} (hn : n.Shaped) : negativeMark ∉ n.text := by
  intro hmem
  rcases List.mem_append.mp hmem with hmem | hmem
  · rcases hn.significand.significand_char _ hmem with hdigit | hpoint
    · exact ne_of_isDecimalDigit hdigit (by decide) rfl
    · exact absurd hpoint (by decide)
  · rcases hn.exponent_char _ hmem with hdigit | hother
    · exact ne_of_isDecimalDigit hdigit (by decide) rfl
    · exact absurd hother (by decide)

/-! ## What may stand beside a numeral -/

/-- Before a numeral in another one that has a point or an exponent of its own there is a digit,
or the point that it lacks. -/
theorem beside_left_of_ofText {n : Numeral} (hn : n.Regular)
    (hmarked : n.fraction ≠ [] ∨ n.exponent ≠ []) {w y : Text} {c : Char}
    (h : (ofText? (w ++ c :: (n.text ++ y))).isSome = true) :
    isDecimalDigit c = true ∨ c = '.' ∧ n.fraction = [] := by
  by_contra hnot
  simp only [not_or, not_and, Bool.not_eq_true] at hnot
  obtain ⟨hdigit, hpoint⟩ := hnot
  obtain ⟨m, hm⟩ := Option.isSome_iff_exists.mp h
  have hpairwise := (shaped_of_ofText hm).pairwise
  rw [text_of_ofText hm, List.pairwise_append, List.pairwise_cons] at hpairwise
  -- behind what is no digit there is no point any more, and no mark unless it is the point
  have hafter : ∀ d ∈ n.text, d ≠ '.' ∧ (c ≠ '.' → d ≠ 'E') := fun d hd =>
    hpairwise.2.1.1 d (List.mem_append_left y hd) hdigit
  have hfraction : n.fraction = [] := by
    rcases hn.fraction with hf | ⟨places, hf, -⟩
    · exact hf
    · have hmem : '.' ∈ n.text := by simp [text, hf]
      exact absurd rfl (hafter _ hmem).1
  have hexponent : n.exponent = [] := by
    rcases hn.exponent with he | ⟨rest, he, -⟩
    · exact he
    · have hmem : 'E' ∈ n.text := by simp [text, he]
      refine absurd rfl ((hafter _ hmem).2 ?_)
      rintro rfl
      exact hpoint rfl hfraction
  exact hmarked.elim (fun hne => hne hfraction) fun hne => hne hexponent

/-- Behind a numeral in another one that has a point or an exponent of its own there is the
exponent that it lacks, if there is no digit. -/
theorem beside_right_of_ofText {n : Numeral} (hn : n.Regular)
    (hmarked : n.fraction ≠ [] ∨ n.exponent ≠ []) {y : Text}
    (hy : ∀ c, y.head? = some c → isDecimalDigit c = false)
    (h : (ofText? (n.text ++ y)).isSome = true) :
    y = [] ∨ n.exponent = [] ∧
      ∃ mark rest, y = mark :: rest ∧ (mark = 'e' ∨ mark = 'E') ∧ IsExponent rest := by
  have hhead : ∀ c, (n.exponent ++ y).head? = some c →
      isDecimalDigit c = false ∧ (n.fraction = [] → c ≠ '.') := by
    intro c hc
    rcases hn.exponent with he | ⟨rest, he, -⟩
    · rw [he] at hc
      exact ⟨hy c hc, fun hf => absurd he (hmarked.resolve_left fun hne => hne hf)⟩
    · rw [he] at hc
      cases hc
      exact ⟨by decide, fun _ => by decide⟩
  have hsignificand := scanSignificand_append_of_regular hn hhead
  have hleft : (scanExponent (fun c => c == 'e' || c == 'E') (n.exponent ++ y)).2 = [] := by
    rw [ofText?, scan, text, List.append_assoc, hsignificand, Option.map_some] at h
    dsimp only at h
    split at h
    · next m hm =>
      exact (Prod.mk.inj (Option.some.inj hm)).2
    · cases h
  rcases hn.exponent with he | ⟨rest, he, hrest⟩
  · have happend := scanExponent_append (fun c => c == 'e' || c == 'E') y
    rw [he, List.nil_append] at hleft
    rw [hleft, List.append_nil] at happend
    rcases isExponent_of_scanExponent (fun c => c == 'e' || c == 'E') y with hnil | hsome
    · exact .inl (happend ▸ hnil)
    · obtain ⟨mark, exponent, hexponent, hmark, hshape⟩ := hsome
      exact .inr ⟨he, mark, exponent, happend ▸ hexponent, by simpa using hmark, hshape⟩
  · rw [he, scanExponent_append_of_isExponent rfl hrest hy] at hleft
    exact .inl hleft

end Numeral

/-! ## Tokens -/

/-- A text that is read as a number, with the sign of a written-back number or without. -/
def IsNumeral (t : Text) : Prop := (Numeral.ofText? (takeNegative t).2).isSome = true

/-- Between these texts the token is no part of a longer numeral. -/
def Atomic (before token after : Text) : Prop :=
  ∀ x y, x <:+ before → y <+: after → IsNumeral (x ++ token ++ y) → x = [] ∧ y = []

/-- A text that starts with an exponent. -/
def StartsExponent (t : Text) : Prop :=
  ∃ mark rest, mark :: rest <+: t ∧ (mark = 'e' ∨ mark = 'E') ∧ IsExponent rest

/-- The neighbours of a literal that make it part of a longer numeral: on the left of one
without a sign the sign of a written-back number, a digit, or a point if it has none; on the
right of one without an exponent an exponent. -/
inductive Joins (before token after : Text) : Prop where
  | sign (hneighbour : before.getLast? = some negativeMark) (htoken : negativeMark ∉ token)
  | digit {d : Char} (hneighbour : before.getLast? = some d) (hd : isDecimalDigit d = true)
    (htoken : negativeMark ∉ token)
  | point (hneighbour : before.getLast? = some '.') (htoken : negativeMark ∉ token)
    (hpoint : '.' ∉ token)
  | exponent (hneighbour : StartsExponent after) (htoken : 'E' ∉ token)

theorem isNumeral_iff {t : Text} : IsNumeral t ↔ (Numeral.ofText? t).isSome = true ∨
    ∃ body, t = negativeMark :: body ∧ (Numeral.ofText? body).isSome = true := by
  cases t with
  | nil => simp [IsNumeral, takeNegative]
  | cons c t =>
    rw [IsNumeral, takeNegative]
    split_ifs with hc
    · obtain rfl := eq_of_beq hc
      constructor
      · intro h
        exact .inr ⟨t, rfl, h⟩
      · rintro (h | ⟨body, hbody, h⟩)
        · obtain ⟨n, hn⟩ := Option.isSome_iff_exists.mp h
          refine absurd ?_ (Numeral.shaped_of_ofText hn).not_mem_negativeMark
          rw [Numeral.text_of_ofText hn]
          exact List.mem_cons_self
        · cases hbody
          exact h
    · constructor
      · exact .inl
      · rintro (h | ⟨body, hbody, -⟩)
        · exact h
        · cases hbody
          exact absurd rfl hc

/-- The sign of a written-back number stands at the front only. -/
theorem not_isNumeral_of_mem {w t : Text} {c : Char} (h : negativeMark ∈ t) :
    ¬IsNumeral (w ++ c :: t) := by
  have hnone : ∀ {u : Text}, negativeMark ∈ u → ¬(Numeral.ofText? u).isSome = true := by
    intro u hu hsome
    obtain ⟨n, hn⟩ := Option.isSome_iff_exists.mp hsome
    refine (Numeral.shaped_of_ofText hn).not_mem_negativeMark ?_
    rw [Numeral.text_of_ofText hn]
    exact hu
  rw [isNumeral_iff]
  rintro (hwhole | ⟨body, hbody, hsome⟩)
  · exact hnone (List.mem_append_right w (List.mem_cons_of_mem c h)) hwhole
  · refine hnone ?_ hsome
    cases w with
    | nil =>
      cases hbody
      exact h
    | cons d w =>
      cases hbody
      exact List.mem_append_right w (List.mem_cons_of_mem c h)

section Literals

variable {n : Numeral} (hn : n.Regular) (negative : Bool)
include hn

theorem negativeMark_not_mem_signedNumeral :
    negativeMark ∉ signedNumeral negative n ↔ negative = false := by
  cases negative with
  | true => simp [signedNumeral]
  | false => simpa [signedNumeral] using hn.shaped.not_mem_negativeMark

omit hn in
/-- But for the sign in front a literal has the characters of its numeral. -/
theorem mem_signedNumeral_iff {c : Char} (hc : c ≠ negativeMark) :
    c ∈ signedNumeral negative n ↔ c ∈ n.text := by
  unfold signedNumeral
  split_ifs
  · rw [List.mem_cons, or_iff_right hc]
  · rfl

theorem point_not_mem_signedNumeral : '.' ∉ signedNumeral negative n ↔ n.fraction = [] := by
  rw [mem_signedNumeral_iff negative (by decide)]
  constructor
  · intro h
    rcases hn.fraction with hf | ⟨places, hf, -⟩
    · exact hf
    · exact absurd (by simp [Numeral.text, hf]) h
  · intro hf hmem
    rw [Numeral.text, hf, List.append_nil] at hmem
    rcases List.mem_append.mp hmem with hmem | hmem
    · exact Numeral.ne_of_isDecimalDigit (hn.whole _ hmem) (by decide) rfl
    · rcases hn.shaped.exponent_char _ hmem with hdigit | hother
      · exact Numeral.ne_of_isDecimalDigit hdigit (by decide) rfl
      · exact absurd hother (by decide)

theorem mark_not_mem_signedNumeral : 'E' ∉ signedNumeral negative n ↔ n.exponent = [] := by
  rw [mem_signedNumeral_iff negative (by decide)]
  constructor
  · intro h
    rcases hn.exponent with he | ⟨rest, he, -⟩
    · exact he
    · exact absurd (by simp [Numeral.text, he]) h
  · intro he hmem
    rw [Numeral.text, he, List.append_nil] at hmem
    rcases hn.significand_char _ hmem with hdigit | hpoint
    · exact Numeral.ne_of_isDecimalDigit hdigit (by decide) rfl
    · exact absurd hpoint (by decide)

end Literals

/-- A decimal is written with a point or with an exponent. -/
theorem Decimal.marked_numeral (d : Decimal) :
    d.numeral.fraction ≠ [] ∨ d.numeral.exponent ≠ [] := by
  unfold Decimal.numeral
  split_ifs
  · exact .inl (List.cons_ne_nil _ _)
  · exact .inl (List.cons_ne_nil _ _)
  · exact .inr (List.cons_ne_nil _ _)

theorem isNumeral_text {n : Numeral} (hn : n.Shaped) : IsNumeral n.text :=
  isNumeral_iff.mpr (.inl (by rw [Numeral.ofText?_of_shaped hn]; rfl))

theorem isNumeral_signed {n : Numeral} (hn : n.Shaped) : IsNumeral (negativeMark :: n.text) :=
  isNumeral_iff.mpr (.inr ⟨n.text, rfl, by rw [Numeral.ofText?_of_shaped hn]; rfl⟩)

section Between

variable {n : Numeral} (hn : n.Regular) {negative : Bool} {before after : Text}
include hn

omit hn in
theorem not_atomic_of_left {token : Text} {c : Char} (hc : before.getLast? = some c)
    (h : IsNumeral (c :: token)) : ¬Atomic before token after := by
  intro hatomic
  obtain ⟨rest, rfl⟩ := List.getLast?_eq_some_iff.mp hc
  have hnumeral : IsNumeral ([c] ++ token ++ []) := by
    rw [List.append_nil]
    exact h
  exact List.cons_ne_nil c [] (hatomic _ _ (List.suffix_append rest [c]) List.nil_prefix hnumeral).1

/-- With a neighbour that joins it, the literal is part of a longer numeral. -/
theorem not_atomic_of_joins (h : Joins before (signedNumeral negative n) after) :
    ¬Atomic before (signedNumeral negative n) after := by
  cases h with
  | sign hneighbour htoken =>
    obtain rfl := (negativeMark_not_mem_signedNumeral hn negative).mp htoken
    exact not_atomic_of_left hneighbour (isNumeral_signed hn.shaped)
  | @digit d hneighbour hd htoken =>
    obtain rfl := (negativeMark_not_mem_signedNumeral hn negative).mp htoken
    have hlonger : Numeral.Regular { n with whole := d :: n.whole } :=
      ⟨List.forall_mem_cons.mpr ⟨hd, hn.whole⟩, hn.fraction, .inl (List.cons_ne_nil _ _),
        hn.exponent⟩
    exact not_atomic_of_left hneighbour (isNumeral_text hlonger.shaped)
  | point hneighbour htoken hpoint =>
    obtain rfl := (negativeMark_not_mem_signedNumeral hn negative).mp htoken
    have hfraction := (point_not_mem_signedNumeral hn false).mp hpoint
    have hwhole : n.whole ≠ [] := by simpa [hfraction] using hn.nonempty
    have hlonger : Numeral.Regular { n with whole := [], fraction := '.' :: n.whole } := by
      refine ⟨by simp, .inr ⟨n.whole, rfl, hn.whole⟩, .inr ?_, hn.exponent⟩
      have hlength := List.length_pos_of_ne_nil hwhole
      simpa using hlength
    have hnumeral := isNumeral_text hlonger.shaped
    refine not_atomic_of_left hneighbour ?_
    rw [signedNumeral, if_neg Bool.false_ne_true, Numeral.text, hfraction, List.append_nil]
    exact hnumeral
  | exponent hneighbour htoken =>
    have hexponent := (mark_not_mem_signedNumeral hn negative).mp htoken
    obtain ⟨mark, rest, hprefix, hmark, hrest⟩ := hneighbour
    have hlonger : Numeral.Shaped { n with exponent := mark :: rest } :=
      ⟨hn.significand, .inr ⟨mark, rest, rfl, hmark, hrest⟩⟩
    have htext : n.text ++ mark :: rest = Numeral.text { n with exponent := mark :: rest } := by
      rw [Numeral.text, hexponent, List.append_nil]
      rfl
    have hnumeral : IsNumeral ([] ++ signedNumeral negative n ++ mark :: rest) := by
      rw [List.nil_append]
      cases negative with
      | false =>
        rw [signedNumeral, if_neg Bool.false_ne_true, htext]
        exact isNumeral_text hlonger
      | true =>
        rw [signedNumeral, if_pos rfl, List.cons_append, htext]
        exact isNumeral_signed hlonger
    intro hatomic
    exact List.cons_ne_nil _ _ (hatomic _ _ (List.nil_suffix) hprefix hnumeral).2

variable (hmarked : n.fraction ≠ [] ∨ n.exponent ≠ [])
include hmarked

/-- What is taken from the left of a literal into a longer numeral ends with a neighbour that
joins the literal. -/
theorem left_eq_nil_of_isNumeral (hfree : ¬Joins before (signedNumeral negative n) after)
    {x y : Text} (hx : x <:+ before) (h : IsNumeral (x ++ signedNumeral negative n ++ y)) :
    x = [] := by
  rcases List.eq_nil_or_concat x with hnil | ⟨w, c, rfl⟩
  · exact hnil
  rw [List.concat_eq_append] at hx h ⊢
  have hc : before.getLast? = some c := by
    obtain ⟨rest, rfl⟩ := hx
    rw [← List.append_assoc, List.getLast?_concat]
  have htext : w ++ [c] ++ signedNumeral negative n ++ y =
      w ++ c :: (signedNumeral negative n ++ y) := by simp
  rw [htext] at h
  cases negative with
  | true =>
    refine absurd h (not_isNumeral_of_mem ?_)
    exact List.mem_append_left y List.mem_cons_self
  | false =>
    have hunsigned := (negativeMark_not_mem_signedNumeral hn false).mpr rfl
    have hplain : signedNumeral false n = n.text := if_neg Bool.false_ne_true
    have hjoins : ∀ {w : Text},
        (Numeral.ofText? (w ++ c :: (n.text ++ y))).isSome = true → False := by
      intro w hsome
      rcases Numeral.beside_left_of_ofText hn hmarked hsome with hdigit | ⟨rfl, hfraction⟩
      · exact hfree (.digit hc hdigit hunsigned)
      · exact hfree (.point hc hunsigned ((point_not_mem_signedNumeral hn false).mpr hfraction))
    rw [hplain, isNumeral_iff] at h
    rcases h with hwhole | ⟨body, hbody, hsome⟩
    · exact (hjoins hwhole).elim
    · cases w with
      | nil =>
        cases hbody
        exact absurd (.sign hc hunsigned) hfree
      | cons d w =>
        cases hbody
        exact (hjoins hsome).elim

/-- What is taken from the right of a literal into a longer numeral joins the literal. -/
theorem right_eq_nil_of_isNumeral (hfree : ¬Joins before (signedNumeral negative n) after)
    (hafter : ∀ c, after.head? = some c → isDecimalDigit c = false) {y : Text}
    (hy : y <+: after) (h : IsNumeral (signedNumeral negative n ++ y)) : y = [] := by
  have hhead : ∀ c, y.head? = some c → isDecimalDigit c = false := by
    intro c hc
    obtain ⟨rest, rfl⟩ := hy
    refine hafter c ?_
    rw [List.head?_append, hc]
    rfl
  rw [IsNumeral, takeNegative_signedNumeral_append hn] at h
  rcases Numeral.beside_right_of_ofText hn hmarked hhead h with
    hnil | ⟨he, mark, rest, rfl, hmark, hrest⟩
  · exact hnil
  · exact absurd (.exponent ⟨mark, rest, hy, hmark, hrest⟩
      ((mark_not_mem_signedNumeral hn negative).mpr he)) hfree

end Between

/-- **When a literal is a token of its own.** In front of anything but a digit, the literal of a
finite double belongs to no longer numeral if and only if no neighbour joins it. -/
theorem atomic_literalText {x : Float} (hx : x.isFinite = true) {before after : Text}
    (hafter : ∀ c, after.head? = some c → isDecimalDigit c = false) :
    Atomic before (literalText x) after ↔ ¬Joins before (literalText x) after := by
  obtain ⟨negative, d, htext, -⟩ := exists_decimal_of_isFinite hx
  have hn := d.regular_numeral
  have hmarked := d.marked_numeral
  rw [htext]
  constructor
  · intro hatomic hjoins
    exact not_atomic_of_joins hn hjoins hatomic
  · intro hfree a b ha hb hnumeral
    obtain rfl := left_eq_nil_of_isNumeral hn hmarked hfree ha hnumeral
    exact ⟨rfl, right_eq_nil_of_isNumeral hn hmarked hfree hafter hb hnumeral⟩

end Reckoner

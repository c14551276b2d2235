import Reckoner.Proofs.Head
import Reckoner.Text.Line
import Mathlib.Data.Nat.SuccPred

/-!
# Every dice operator rolls once

Texts are rewritten while they are evaluated, but the letter `d` is never written anew and
never left out: each one in an expression is an operator of some text on the way, and is
applied exactly once (`Derives.rolls`). The lines of the rolls tell how many dice were drawn.
-/

namespace Reckoner

open Eval

/-! ## Rolls of a derivation -/

/-- The roll lines among entries. -/
def rollsIn (entries : List Event) : List RollLine := entries.filterMap Event.roll?

@[simp] theorem rollsIn_nil : rollsIn [] = [] := rfl

@[simp] theorem rollsIn_append (xs ys : List Event) :
    rollsIn (xs ++ ys) = rollsIn xs ++ rollsIn ys := List.filterMap_append

@[simp] theorem rollsIn_step (step : Step) (xs : List Event) :
    rollsIn (.step step :: xs) = rollsIn xs := rfl

@[simp] theorem rollsIn_concat (xs : List Event) (step : Step) :
    rollsIn (xs ++ [.step step]) = rollsIn xs := by
  rw [rollsIn_append, rollsIn_step, rollsIn_nil, List.append_nil]

/-- So many rolls are made for what is derived: one for every `d` of the text. -/
def Judgement.RollsBy : Judgement → Nat → Prop
  | .nested _ t _, rolls | .direct _ t _, rolls | .side _ t _, rolls => rolls = t.count 'd'
  | .arguments pieces _, rolls => rolls = (pieces.map (·.count 'd')).sum
  | .folds t flat, rolls => rolls + flat.count 'd' = t.count 'd'

theorem count_d_of_isWordChar {t : Text} (h : ∀ c ∈ t, IsWordChar c) : t.count 'd' = 0 :=
  List.count_eq_zero_of_not_mem fun hd => not_isWordChar_d (h 'd' hd)

theorem count_d_of_head {t head argument : Text} (ht : t = head ++ argument)
    (hhead : ∀ c ∈ head, IsWordChar c) : t.count 'd' = argument.count 'd' := by
  rw [ht, List.count_append, count_d_of_isWordChar hhead, Nat.zero_add]

theorem count_d_group (before inner after : Text) :
    (before ++ '(' :: (inner ++ ')' :: after)).count 'd' =
      before.count 'd' + (inner.count 'd' + after.count 'd') := by
  rw [List.count_append, List.count_cons_of_ne (by decide), List.count_append,
    List.count_cons_of_ne (by decide)]

theorem count_d_valueText (before after : Text) {x : Float} (hx : x.isFinite = true) :
    (valueText before x after).count 'd' = 0 := by
  refine List.count_eq_zero_of_not_mem fun hd => ?_
  rcases eq_or_isNumberChar_of_mem_valueText hx 'd' hd with hstar | hnumber
  · cases hstar
  · exact not_isWordChar_d (.inl hnumber)

/-- Of the operators only `d` rolls, and it rolls once. -/
theorem length_rollsIn_combined {tier : Tier} (htier : tier ∈ Tier.all) {c : Char}
    (hc : c ∈ tier.symbols) {x y z : Float} {rolls : List Event}
    (h : Combined (.ofSymbol c) x y z rolls) : (rollsIn rolls).length = [c].count 'd' := by
  have hsymbol : ∀ tier ∈ Tier.all, ∀ c ∈ tier.symbols,
      [c].count 'd' = if Operator.ofSymbol c = .dice then 1 else 0 := by
    simp only [Tier.all, List.forall_mem_cons]
    decide
  rw [hsymbol tier htier c hc]
  generalize Operator.ofSymbol c = o at h
  cases h <;> rfl

/-- The pieces of a bracketed list have the letters of the list. -/
theorem sum_count_of_bracketedList {argument : Text} {pieces : List Text}
    (h : bracketedList? argument = some pieces) :
    (pieces.map (·.count 'd')).sum = argument.count 'd' := by
  obtain ⟨body, rfl, -, rfl⟩ := exists_body_of_bracketedList h
  rw [splitTopLevel, sum_count_splitTopLevelFrom (by decide)]
  simp [List.count_append]

/-- **One roll for each `d`.** -/
theorem Derives.rolls {judgement : Judgement} {es : List Event} {ns : List Float}
    (h : Derives judgement es ns) : judgement.RollsBy (rollsIn es).length := by
  induction h with
  | nested _ ih => exact ih
  | flat _ => exact Nat.zero_add _
  | @listed before inner after flat es ns hinner _ ih =>
    -- a list keeps the letters of its group, so its rolls are still to come
    have hlist : (bracketed (splitTopLevel (· == ',') inner)).count 'd' = inner.count 'd' := by
      simp [count_bracketed (show 'd' ≠ ',' by decide) (show 'd' ≠ ';' by decide)]
    simp only [Judgement.RollsBy, List.count_append, hlist] at ih
    rw [Judgement.RollsBy, rollsIn_step, count_d_group]
    omega
  | @valued before inner after flat x es es' ns ns' hinner _ hfinite _ ihx ih =>
    -- a value that was written back has no letter, the rolls of its group have been made
    simp only [Judgement.RollsBy, List.count_append, count_d_valueText before after hfinite]
      at ihx ih
    rw [Judgement.RollsBy, rollsIn_append, rollsIn_step, List.length_append, count_d_group]
    omega
  | whole _ _ ihflat ihx =>
    simp only [Judgement.RollsBy, rollsIn_append, List.length_append] at ihflat ihx ⊢
    omega
  | @split _ _ tier l r c _ _ _ es es' rolls _ _ htiers _ hc _ _ _ hz ihx ihy =>
    have htier : tier ∈ Tier.all := by simp [htiers]
    have hroll := length_rollsIn_combined htier hc hz
    rw [Judgement.RollsBy, rollsIn_append, rollsIn_append, rollsIn_concat]
    simp only [Judgement.RollsBy, List.length_append, List.count_append, List.count_cons,
      List.count_nil] at ihx ihy hroll ⊢
    omega
  | unsplit _ _ ih => exact ih
  | missing tier => rfl
  | operand _ _ ih => exact ih
  | chain _ _ ih => exact ih
  | applied _ ih => exact ih
  | factorial _ _ ih =>
    simp only [Judgement.RollsBy, rollsIn_concat, List.count_append] at ih ⊢
    simpa using ih
  | unary hf _ _ _ _ ih =>
    obtain ⟨head, ht, hhead, -⟩ := exists_unaryHead hf
    rw [Judgement.RollsBy, rollsIn_concat, count_d_of_head ht hhead]
    exact ih
  | single hf _ _ _ ih =>
    obtain ⟨head, ht, hhead, -⟩ := exists_listHead hf
    rw [Judgement.RollsBy, rollsIn_concat, count_d_of_head ht hhead]
    exact ih
  | list hf hpieces _ _ _ ih =>
    obtain ⟨head, ht, hhead, -⟩ := exists_listHead hf
    rw [Judgement.RollsBy, rollsIn_concat, count_d_of_head ht hhead,
      ← sum_count_of_bracketedList hpieces]
    exact ih
  | constant hk _ => exact (count_d_of_isWordChar (isWordChar_of_mem_constant hk)).symm
  | multiple hk _ _ ih =>
    rw [Judgement.RollsBy, rollsIn_concat, List.count_append,
      count_d_of_isWordChar (isWordChar_of_mem_constant hk), Nat.add_zero]
    exact ih
  | literal h => exact (count_d_of_isWordChar (isWordChar_of_readsAs h)).symm
  | nil => rfl
  | cons _ _ ihx ihxs =>
    simp only [Judgement.RollsBy, rollsIn_append, List.length_append, List.map_cons,
      List.sum_cons] at ihx ihxs ⊢
    omega

/-! ## Roll lines -/

/-- The line of a roll that was made, and not one stated from outside. -/
def IsRolled (line : RollLine) : Prop :=
  ∃ count faces shown cut total, line = .rolled count faces shown cut total

theorem isRolled_combined {o : Operator} {x y z : Float} {rolls : List Event}
    (h : Combined o x y z rolls) : ∀ line ∈ rollsIn rolls, IsRolled line := by
  intro line hline
  cases h with
  | dice x y shown cut _ =>
    rw [List.mem_singleton.mp hline]
    exact ⟨_, _, shown, cut, _, rfl⟩
  | plus | minus | times | divide | power | modulo => cases hline

theorem Derives.isRolled {judgement : Judgement} {es : List Event} {ns : List Float}
    (h : Derives judgement es ns) : ∀ line ∈ rollsIn es, IsRolled line := by
  induction h with
  | split _ _ _ _ _ _ hz ihx ihy =>
    have hroll := isRolled_combined hz
    simp only [rollsIn_append, rollsIn_step, rollsIn_nil, List.append_nil, List.mem_append]
    rintro line ((hline | hline) | hline)
    · exact ihx line hline
    · exact ihy line hline
    · exact hroll line hline
  | valued _ _ _ _ ihx ih | whole _ _ ihx ih | cons _ _ ihx ih =>
    simp only [rollsIn_append, rollsIn_step, List.mem_append]
    rintro line (hline | hline)
    · exact ihx line hline
    · exact ih line hline
  | nested _ ih | listed _ _ ih | unsplit _ _ ih | operand _ _ ih | chain _ _ ih
  | applied _ ih => exact ih
  | factorial _ _ ih | unary _ _ _ _ _ ih | single _ _ _ _ ih | list _ _ _ _ _ ih
  | multiple _ _ _ ih =>
    simpa using ih
  | flat | missing | constant | literal | nil => simp

/-- The number of dice that the notation `<n>d<s>` at the start of a line gives. -/
def notedCount (line : Text) : Nat := digitsValue ((line.takeWhile (· != 'd')).dropWhile (· == '-'))

theorem eq_or_isDigit_of_mem_intText {n : Int} {c : Char} (hc : c ∈ intText n) :
    c = '-' ∨ c.isDigit = true := by
  unfold intText at hc
  split_ifs at hc
  · exact (List.mem_cons.mp hc).imp_right (isDigit_natText c)
  · exact .inr (isDigit_natText c hc)

theorem notedCount_rolled (count faces : Int) (shown : List Nat) (cut : Bool) (total : Int) :
    notedCount (RollLine.rolled count faces shown cut total).text = count.natAbs := by
  have htake : ∀ rest, (intText count ++ 'd' :: rest).takeWhile (· != 'd') = intText count := by
    intro rest
    have hall : ∀ c ∈ intText count, (c != 'd') = true := by
      intro c hc
      rw [bne_iff_ne]
      rintro rfl
      rcases eq_or_isDigit_of_mem_intText hc with h | h <;> revert h <;> decide
    rw [List.takeWhile_append_of_pos hall]
    simp
  have hdrop : (intText count).dropWhile (· == '-') = natText count.natAbs := by
    have hdigits : (natText count.natAbs).dropWhile (· == '-') = natText count.natAbs := by
      obtain ⟨d, digits, htext⟩ := List.exists_cons_of_ne_nil (natText_ne_nil count.natAbs)
      have hd : (d == '-') = false := by
        have hdigit := isDigit_natText d (htext ▸ List.mem_cons_self)
        rw [beq_eq_false_iff_ne]
        rintro rfl
        cases hdigit
      rw [htext, List.dropWhile_cons, hd]
      rfl
    unfold intText
    split_ifs
    · exact hdigits
    · exact hdigits
  simp only [notedCount, RollLine.text, rollHead, List.append_assoc, List.cons_append, htake, hdrop,
    digitsValue_natText]

/-! ## Lines of a text -/

theorem linesFrom_append {line x : Text} (hx : ∀ c ∈ x, isLineBreak c = false) (rest : Text) :
    Text.linesFrom line (x ++ rest) = Text.linesFrom (x.reverse ++ line) rest := by
  induction x generalizing line with
  | nil => rfl
  | cons c x ih =>
    have hc := hx c List.mem_cons_self
    have hreturn : c ≠ '\r' := by
      rintro rfl
      revert hc
      decide
    rw [List.cons_append, Text.linesFrom, hc, if_neg Bool.false_ne_true,
      ih fun d hd => hx d (List.mem_cons_of_mem c hd)]
    · simp
    · intro _ h
      exact absurd h hreturn

/-- Lines that are joined by line feeds are read off again. -/
theorem lines_join {parts : List Text}
    (h : ∀ p ∈ parts, p ≠ [] ∧ ∀ c ∈ p, isLineBreak c = false) :
    (Text.join ['\n'] parts).lines = parts := by
  induction parts with
  | nil => rfl
  | cons p parts ih =>
    obtain ⟨hne, hp⟩ := h p List.mem_cons_self
    have hrest := ih fun q hq => h q (List.mem_cons_of_mem p hq)
    cases parts with
    | nil =>
      rw [join_singleton, Text.lines, ← List.append_nil p, linesFrom_append hp]
      simp [Text.linesFrom, hne]
    | cons q parts =>
      rw [join_cons_cons, Text.lines, linesFrom_append hp]
      have hfeed : ∀ line rest, Text.linesFrom line ('\n' :: rest) =
          line.reverse :: Text.lines rest := fun line rest => rfl
      rw [hfeed, hrest]
      simp

/-- The characters of a roll line that are no digits. -/
def rollMarks : List Char := ['d', ':', ' ', '[', '-', ',', '.', ']', '=']

theorem mem_rollMarks_or_isDigit {count faces total : Int} {shown : List Nat} {cut : Bool} {c : Char}
    (hc : c ∈ (RollLine.rolled count faces shown cut total).text) :
    c ∈ rollMarks ∨ c.isDigit = true := by
  have hmark : ∀ marks : Text, (∀ m ∈ marks, m ∈ rollMarks) → c ∈ marks →
      c ∈ rollMarks ∨ c.isDigit = true := fun marks h hc => .inl (h c hc)
  have hint : ∀ {n : Int}, c ∈ intText n → c ∈ rollMarks ∨ c.isDigit = true := by
    intro n hc
    refine (eq_or_isDigit_of_mem_intText hc).imp_left ?_
    rintro rfl
    decide
  simp only [RollLine.text, rollHead, List.mem_append] at hc
  rcases hc with (((((hc | hc) | hc) | hc) | hc) | hc) | hc
  · exact hint hc
  · rcases List.mem_cons.mp hc with rfl | hc
    · exact .inl (by decide)
    · exact hint hc
  · exact hmark _ (by decide) hc
  · split_ifs at hc <;> exact hmark _ (by decide) hc
  · rcases mem_of_mem_join hc with hc | ⟨value, hvalue, hc⟩
    · exact hmark _ (by decide) hc
    · rcases List.mem_append.mp hvalue with hvalue | hvalue
      · obtain ⟨n, -, rfl⟩ := List.mem_map.mp hvalue
        exact .inr (isDigit_natText c hc)
      · split_ifs at hvalue
        · rw [List.mem_singleton.mp hvalue] at hc
          exact hmark _ (by decide) hc
        · cases hvalue
  · exact hmark _ (by decide) hc
  · exact hint hc

theorem isLineBreak_of_isDigit {c : Char} (h : c.isDigit = true) : isLineBreak c = false := by
  rw [Char.isDigit, Bool.and_eq_true, decide_eq_true_iff, decide_eq_true_iff, ge_iff_le,
    UInt32.le_iff_toNat_le, UInt32.le_iff_toNat_le] at h
  have hrange : 48 ≤ c.toNat ∧ c.toNat ≤ 57 := h
  simp only [isLineBreak, Bool.or_eq_false_iff, Bool.and_eq_false_iff, decide_eq_false_iff_not,
    beq_eq_false_iff_ne]
  omega

/-- No line break is written into a roll line. -/
theorem isLineBreak_rolled (count faces : Int) (shown : List Nat) (cut : Bool) (total : Int) :
    ∀ c ∈ (RollLine.rolled count faces shown cut total).text, isLineBreak c = false := by
  have hmarks : ∀ c ∈ rollMarks, isLineBreak c = false := by decide
  exact fun c hc => (mem_rollMarks_or_isDigit hc).elim (hmarks c) isLineBreak_of_isDigit

theorem text_rolled_ne_nil (count faces : Int) (shown : List Nat) (cut : Bool) (total : Int) :
    (RollLine.rolled count faces shown cut total).text ≠ [] := by
  simp [RollLine.text, rollHead]

/-- The lines of the roll text are those of the rolls. -/
theorem lines_rollText {l : Ledger} (h : ∀ line ∈ l.rolls, IsRolled line) :
    l.rollText.lines = l.rolls.map RollLine.text := by
  have hlines : ∀ p ∈ l.rolls.map RollLine.text, p ≠ [] ∧ ∀ c ∈ p, isLineBreak c = false := by
    intro p hp
    obtain ⟨line, hline, rfl⟩ := List.mem_map.mp hp
    obtain ⟨count, faces, shown, cut, total, rfl⟩ := h line hline
    exact ⟨text_rolled_ne_nil count faces shown cut total,
      isLineBreak_rolled count faces shown cut total⟩
  have hdrop : (l.rolls.map RollLine.text).dropWhile List.isEmpty = l.rolls.map RollLine.text := by
    generalize l.rolls.map RollLine.text = lines at hlines
    cases lines with
    | nil => rfl
    | cons p lines =>
      refine List.dropWhile_cons_of_neg ?_
      simpa using (hlines p List.mem_cons_self).1
  rw [Ledger.rollText, hdrop, lines_join hlines]

/-! ## Draws -/

/-- What the lines note is what was drawn. -/
theorem drawnIn_eq_sum_notedCount {es : List Event} (h : ∀ line ∈ rollsIn es, IsRolled line) :
    drawnIn es = (((rollsIn es).map RollLine.text).map notedCount).sum := by
  induction es with
  | nil => rfl
  | cons e es ih =>
    have hcons : drawnIn (e :: es) = e.drawn + drawnIn es := by simp [drawnIn]
    cases e with
    | problem p => rw [hcons, ih h]; exact Nat.zero_add _
    | step step => rw [hcons, ih h]; exact Nat.zero_add _
    | roll line =>
      have hrolls : rollsIn (.roll line :: es) = line :: rollsIn es := rfl
      rw [hrolls] at h ⊢
      obtain ⟨count, faces, shown, cut, total, rfl⟩ := h line List.mem_cons_self
      rw [hcons, ih fun line hline => h line (List.mem_cons_of_mem _ hline), List.map_cons,
        List.map_cons, List.sum_cons, notedCount_rolled]
      rfl

variable {σ : Type}

/-- The same setting with a count of the draws. -/
def Setting.counting (setting : Setting σ) : Setting (σ × Nat) := setting.alongside Nat.succ

/-- **Every dice operator rolls once.** An expression that is evaluated without a problem has
one roll line for each `d` in it, and with a count of the draws from zero on, the evaluation
ends with the sum of the numbers of dice that the lines note. -/
theorem evaluateExpression_rolls {stack : Stack} {setting : Setting σ} {dice after : σ}
    {expression : Text} {e : Evaluation}
    (h : evaluateExpression setting dice expression stack = .ok (e, after))
    (he : e.failed = false) :
    e.ledger.rollText.lines.length = expression.count 'd' ∧
      evaluateExpression setting.counting (dice, 0) expression stack =
        .ok (e, after, (e.ledger.rollText.lines.map notedCount).sum) := by
  have hderives := derives_of_success h he
  have hlines : e.ledger.rollText.lines = (rollsIn e.ledger.events).map RollLine.text :=
    lines_rollText hderives.isRolled
  rw [hlines]
  constructor
  · have hcount : expression.withoutBlanks.count 'd' = expression.count 'd' :=
      List.count_filter (by decide)
    rw [List.length_map, hderives.rolls, hcount]
  · obtain ⟨n, hcounting⟩ := exists_evaluateExpression_alongside Nat.succ 0 h
    have hreplay : (after, n) =
        (setting.source.alongside Nat.succ).replay e.ledger.events (dice, 0) :=
      replay_of_evaluateExpression hcounting
    rw [Source.replay_alongside, Nat.succ_iterate, Nat.zero_add] at hreplay
    rw [← drawnIn_eq_sum_notedCount hderives.isRolled, ← (Prod.mk.inj hreplay).2]
    exact hcounting

/-- The dice of a group are rolled before those that it numbers. -/
theorem evaluateExpression_rolls_numbered :
    ∃ e, evaluateExpression usual .low ['(', '3', 'd', '1', ')', 'd', '2'] = .ok (e, .low) ∧
      e.failed = false ∧ e.ledger.rollText.lines.length = 2 ∧
      evaluateExpression usual.counting (.low, 0) ['(', '3', 'd', '1', ')', 'd', '2'] =
        .ok (e, .low, 6) := by
  have h : evaluateExpression usual .low ['(', '3', 'd', '1', ')', 'd', '2'] =
      .ok ({ expression := ['(', '3', 'd', '1', ')', 'd', '2']
             value := 3.0
             ledger :=
              { events := [.roll (.rolled 3 1 [1, 1, 1] false 3),
                  .step (.binary 3.0 'd' 1.0 3.0 ['3', 'd', '1']),
                  .step (.groupValue ['(', '3', 'd', '1', ')'] 3.0),
                  .roll (.rolled 3 2 [1, 1, 1] false 3),
                  .step (.binary 3.0 'd' 2.0 3.0 ['3', '.', '0', 'd', '2'])]
                shown := 6 } }, .low) := by decide +kernel
  obtain ⟨hlines, hdraws⟩ := evaluateExpression_rolls h (by decide +kernel)
  refine ⟨_, h, by decide +kernel, hlines, hdraws.trans ?_⟩
  decide +kernel

end Reckoner

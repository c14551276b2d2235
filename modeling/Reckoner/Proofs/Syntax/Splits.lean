import Reckoner.Proofs.Syntax.Flat

/-!
# Where the text of a tree is split

A tier splits the text of a tree at the operators of its own precedence and nowhere else: what
binds tighter holds none of its operators outside of brackets, the sign of an exponent has its
mark before it, and a sign in front of an operand has an operator before it. So the last split
point of an operation is its operator.
-/

namespace Reckoner

/-- The tiers with the levels of their operators. -/
inductive Tier.At : Tier → Nat → Prop where
  | additive : At .additive 1
  | multiplicative : At .multiplicative 2
  | powers : At .powers 3
  | diceAndModulo : At .diceAndModulo 4

namespace Tier.At

variable {tier : Tier} {k : Nat}

theorem mem_operators_iff (h : tier.At k) (o : Operator) : o ∈ tier.operators ↔ o.level = k := by
  cases h <;> cases o <;> decide

/-- The characters of what binds tighter are not those of a tier without signs. -/
theorem covers (h : tier.At k) (hk : 1 < k) : Tree.Covers (· ∉ tier.symbols) k := by
  have hoperator : ∀ o : Operator, k < o.level → o.symbol ∉ tier.symbols := by
    intro o ho
    refine symbol_not_mem_symbols fun hmem => ?_
    have := (h.mem_operators_iff o).mp hmem
    omega
  have hall : ∀ {tier : Tier}, (∀ d ∈ tier.symbols, isDecimalDigit d = false ∧
      d ∉ ['.', 'E', '+', '-', negativeMark]) → ∀ c, IsNumberChar c → c ∉ tier.symbols := by
    intro tier hsymbols c hc hm
    exact ne_of_isNumberChar hc (hsymbols c hm).1 (hsymbols c hm).2 rfl
  cases h with
  | additive => exact absurd hk (Nat.lt_irrefl 1)
  | multiplicative => exact ⟨hall (by decide), by decide, by decide, hoperator⟩
  | powers => exact ⟨hall (by decide), by decide, by decide, hoperator⟩
  | diceAndModulo => exact ⟨hall (by decide), by decide, by decide, hoperator⟩

end Tier.At

theorem isSignLead_symbol (o : Operator) : isSignLead o.symbol = true := by cases o <;> decide

namespace Tree

/-! ## Ends -/

/-- A character that no sign follows, nor is it the mark of a factorial. -/
def IsAtomEnd (c : Char) : Prop := isSignLead c = false ∧ c ≠ '!'

theorem isAtomEnd_of_isNumberEnd {c : Char} (h : IsNumberEnd c) : IsAtomEnd c := by
  refine ⟨not_isSignLead_of_isNumberEnd h, ?_⟩
  rintro rfl
  revert h
  simp only [IsNumberEnd]
  decide

theorem exists_lastOf_literal {t : Tree} (h : t.HasFinite) (previous : Option Char) :
    ∃ c, lastOf previous t.literal = some c ∧ IsAtomEnd c := by
  obtain ⟨x, hx, hfinite⟩ := h
  obtain ⟨negative, n, htext, hn, -⟩ := exists_numeral_of_isFinite hfinite
  obtain ⟨c, hc, hend⟩ := lastOf_signedNumeral hn negative previous
  rw [literal_of_denote hx, htext]
  exact ⟨c, hc, isAtomEnd_of_isNumberEnd hend⟩

theorem exists_lastOf_constant {k : Constant} (h : k ∈ constants) (previous : Option Char) :
    ∃ c, lastOf previous k.name.toList = some c ∧ IsAtomEnd c := by
  simp only [constants, List.mem_cons, List.not_mem_nil, or_false] at h
  rcases h with rfl | rfl | rfl | rfl | rfl | rfl | rfl | rfl | rfl <;>
    exact ⟨_, rfl, by decide, by decide⟩

/-- What is no operation ends like a number or a name. -/
theorem exists_lastOf_atom {t : Tree} (hwf : t.WellFormed) (hs : t.Settled) (hlevel : 6 ≤ t.level)
    (previous : Option Char) : ∃ c, lastOf previous t.flatText = some c ∧ IsAtomEnd c := by
  cases t with
  | numeral n =>
    obtain ⟨c, hc, hend⟩ := lastOf_signedNumeral hwf false previous
    exact ⟨c, hc, isAtomEnd_of_isNumberEnd hend⟩
  | constant factor k =>
    rw [flatText, lastOf_append]
    exact exists_lastOf_constant hwf.2 _
  | group t => exact exists_lastOf_literal hs previous
  | call multiplier f arguments =>
    rcases single_or_list arguments with ⟨a, rfl⟩ | hlist
    · rw [flatText, lastOf_append]
      exact exists_lastOf_literal hs _
    · rw [flatText_list hlist, lastOf_append, Eval.bracketed, lastOf_append]
      exact ⟨']', rfl, by decide, by decide⟩
  | factorial t => exact absurd hlevel (by simp [level])
  | binary o l r =>
    have ho : 6 ≤ o.level := hlevel
    have hle := o.level_le
    omega
  | signed negative t => exact absurd hlevel (by simp [level])

/-- After the text of a tree no sign is expected. -/
theorem exists_lastOf_flatText {t : Tree} (hwf : t.WellFormed) (hs : t.Settled)
    (previous : Option Char) :
    ∃ c, lastOf previous t.flatText = some c ∧ isSignLead c = false := by
  have hatom : ∀ {t : Tree}, t.WellFormed → t.Settled → 6 ≤ t.level → ∀ previous,
      ∃ c, lastOf previous t.flatText = some c ∧ isSignLead c = false := by
    intro t hwf hs hlevel previous
    obtain ⟨c, hc, hend⟩ := exists_lastOf_atom hwf hs hlevel previous
    exact ⟨c, hc, hend.1⟩
  induction t generalizing previous with
  | numeral n => exact hatom hwf hs (le_refl 6) previous
  | constant factor k => exact hatom hwf hs (le_refl 6) previous
  | group t _ => exact hatom hwf hs (le_refl 6) previous
  | call multiplier f arguments _ => exact hatom hwf hs (le_refl 6) previous
  | factorial t _ =>
    rw [flatText, lastOf_append]
    exact ⟨'!', rfl, by decide⟩
  | binary o l r _ ihr =>
    rw [flatText, lastOf_append, lastOf_cons]
    exact ihr hwf.2.2.2 hs.2 _
  | signed negative t ih =>
    rw [flatText, lastOf_cons]
    exact ih hwf.2 hs _

theorem flatText_ne_nil {t : Tree} (hwf : t.WellFormed) (hs : t.Settled) : t.flatText ≠ [] := by
  intro h
  obtain ⟨c, hc, -⟩ := exists_lastOf_flatText hwf hs none
  rw [h] at hc
  cases hc

/-- No argument of a list is missing. -/
theorem any_isEmpty_flatTexts {ts : List Tree} (hwf : ∀ t ∈ ts, t.WellFormed)
    (hs : ∀ t ∈ ts, t.Settled) : (ts.map flatText).any List.isEmpty = false := by
  rw [List.any_eq_false]
  intro p hp
  obtain ⟨t, ht, rfl⟩ := List.mem_map.mp hp
  simpa using flatText_ne_nil (hwf t ht) (hs t ht)

/-! ## No split points -/

theorem sealed_true {t : Tree} (hwf : t.WellFormed) (hs : t.Settled) :
    Sealed (fun _ => True) t.flatText := sealed_flatText covers_true hwf hs (level_pos _)

theorem unsplit_additive_literal {t : Tree} (h : t.HasFinite) (previous : Option Char) :
    Unsplit Tier.additive.symbols Tier.additive.signed 0 previous t.literal := by
  obtain ⟨x, hx, hfinite⟩ := h
  obtain ⟨negative, n, htext, hn, -⟩ := exists_numeral_of_isFinite hfinite
  rw [literal_of_denote hx, htext]
  exact unsplit_additive_signedNumeral hn negative previous

/-- A numeral in front, if there is one, is no place to split either. -/
theorem unsplit_additive_optional {n : Option Numeral} (hn : ∀ m ∈ n, m.Regular) {t : Text}
    (ht : ∀ previous, Unsplit Tier.additive.symbols Tier.additive.signed 0 previous t)
    (previous : Option Char) :
    Unsplit Tier.additive.symbols Tier.additive.signed 0 previous (optionalText n ++ t) := by
  cases n with
  | none => exact ht previous
  | some n =>
    have hsealed : Sealed (fun _ => True) n.text :=
      sealed_of_isNumberChar (isNumberChar_of_mem_text (hn n rfl)) fun _ _ => trivial
    exact hsealed.unsplit_append (unsplit_additive_signedNumeral (hn n rfl) false previous) (ht _)

theorem sealed_name {s : Text} (h : ∀ c ∈ s, c ∈ nameText) :
    Sealed (· ∉ Tier.additive.symbols) s := by
  have hall : ∀ c ∈ nameText, isBracket c = false ∧ c ∉ Tier.additive.symbols := by decide
  exact .of_forall fun c hc => hall c (h c hc)

/-- No sum is outside of the brackets of what binds tighter, signs in front aside. -/
theorem unsplit_additive {t : Tree} (hwf : t.WellFormed) (hs : t.Settled)
    (hk : 1 < t.unsigned.level) {previous : Option Char}
    (hprevious : 1 < t.level ∨ previous.any isSignLead = true) :
    Unsplit Tier.additive.symbols Tier.additive.signed 0 previous t.flatText := by
  induction t generalizing previous with
  | numeral n => exact unsplit_additive_signedNumeral hwf false previous
  | constant factor k =>
    exact unsplit_additive_optional hwf.1
      (fun _ => (sealed_name (Constant.mem_nameText hwf.2)).unsplit _) previous
  | group t _ => exact unsplit_additive_literal hs previous
  | call multiplier f arguments _ =>
    have hname := sealed_name (Callee.mem_nameText hwf.2.1)
    rcases single_or_list arguments with ⟨a, rfl⟩ | hlist
    · rw [flatText, List.append_assoc]
      exact unsplit_additive_optional hwf.1 (fun _ => hname.unsplit_append (hname.unsplit _)
        (unsplit_additive_literal hs _)) previous
    · rw [flatText_list hlist, List.append_assoc]
      rw [settled_list hlist] at hs
      have hbracketed : Sealed (· ∉ Tier.additive.symbols)
          (Eval.bracketed (arguments.map flatText)) := by
        refine .bracketed (sealed_join rfl trivial fun p hp => ?_) .nil
        obtain ⟨a, ha, rfl⟩ := List.mem_map.mp hp
        exact sealed_true (eachWellFormed_iff.mp hwf.2.2.2 a ha) (hs a ha)
      exact unsplit_additive_optional hwf.1 (fun _ => (hname.append hbracketed).unsplit _) previous
  | factorial t ih =>
    have hlevel : 1 < t.level := by have := hwf.1; omega
    have hmark : Sealed (· ∉ Tier.additive.symbols) ['!'] :=
      .of_forall fun c hc => by rw [List.mem_singleton.mp hc]; decide
    exact (sealed_true hwf.2 hs).unsplit_append
      (ih hwf.2 hs (lt_level_unsigned hlevel) (.inl hlevel)) (hmark.unsplit _)
  | binary o l r ihl ihr =>
    obtain ⟨-, ⟨hlevel, hl⟩, hright, hr⟩ := hwf
    have ho : 1 < o.level := hk
    have hleft : 1 < l.level := by omega
    have hmem : o.symbol ∉ Tier.additive.symbols := by
      refine symbol_not_mem_symbols fun h => ?_
      have := (Tier.At.additive.mem_operators_iff o).mp h
      omega
    refine (sealed_true hl hs.1).unsplit_append (ihl hl hs.1 (lt_level_unsigned hleft) (.inl hleft)) ?_
    refine .cons (fun _ => isSplit_of_not_mem hmem) ?_
    rw [depthAfter_of_not_isBracket (isBracket_symbol o)]
    exact ihr hr hs.2 (by omega) (.inr (isSignLead_symbol o))
  | signed negative t ih =>
    -- a tree with a sign in front is no looser than a sum, so an operator is before it
    have hlead : previous.any isSignLead = true :=
      hprevious.resolve_left (Nat.lt_irrefl 1)
    refine .cons (fun _ => ?_) ?_
    · rw [isSplit, hlead]
      exact Bool.and_false _
    · rw [depthAfter_of_not_isBracket (isBracket_symbol _)]
      exact ih hwf.2 hs hk (.inr (isSignLead_symbol _))

/-- **No split points.** A tier does not split what binds tighter. -/
theorem unsplit_flatText {tier : Tier} {k : Nat} (h : tier.At k) {t : Tree} (hwf : t.WellFormed)
    (hs : t.Settled) (hk : k < t.unsigned.level) {previous : Option Char}
    (hprevious : 1 < t.level ∨ previous.any isSignLead = true) :
    Unsplit tier.symbols tier.signed 0 previous t.flatText := by
  -- only the first tier has signs; for the others their characters do not occur
  by_cases hone : 1 < k
  · exact (sealed_flatText (h.covers hone) hwf hs hk).unsplit previous
  · cases h with
    | additive => exact unsplit_additive hwf hs hk hprevious
    | multiplicative => exact absurd (by decide) hone
    | powers => exact absurd (by decide) hone
    | diceAndModulo => exact absurd (by decide) hone

/-! ## The last split point -/

/-- The operator of an operation is the last split point of its tier. -/
theorem splitPoints_binary {tier : Tier} {o : Operator} (h : tier.At o.level) {l r : Tree}
    (hwf : (Tree.binary o l r).WellFormed) (hs : (Tree.binary o l r).Settled) :
    splitPoints tier.symbols tier.signed (l.flatText ++ o.symbol :: r.flatText) =
      splitPoints tier.symbols tier.signed l.flatText ++ [l.flatText.length] := by
  obtain ⟨-, ⟨hlevel, hl⟩, hright, hr⟩ := hwf
  obtain ⟨c, hlast, hlead⟩ := exists_lastOf_flatText hl hs.1 none
  have hmem := symbol_mem_symbols ((h.mem_operators_iff o).mpr rfl)
  refine splitPoints_snoc ((sealed_true hl hs.1).depthOver_eq 0) ?_
    (unsplit_flatText h hr hs.2 hright (.inr (isSignLead_symbol o)))
  simp [hlast, isSplit, hmem, isBracket_symbol, hlead]

/-- A sign in front is the last split point of its tier. -/
theorem splitPoints_signed {negative : Bool} {t : Tree} (hwf : (Tree.signed negative t).WellFormed)
    (hs : t.Settled) :
    splitPoints Tier.additive.symbols Tier.additive.signed
      ([] ++ (signOperator negative).symbol :: t.flatText) = [] ++ [0] := by
  have hmem : (signOperator negative).symbol ∈ Tier.additive.symbols := by
    cases negative <;> decide
  have hsplit := splitPoints_snoc (l := []) (depthOver_nil 0)
    (by simp [isSplit, hmem, isBracket_symbol])
    (unsplit_flatText .additive hwf.2 hs hwf.1 (.inr (isSignLead_symbol (signOperator negative))))
  exact hsplit

/-- A tier splits the trees of its own level. -/
theorem splitPoints_flatText_ne_nil {tier : Tier} {t : Tree} (h : tier.At t.level)
    (hwf : t.WellFormed) (hs : t.Settled) :
    splitPoints tier.symbols tier.signed t.flatText ≠ [] := by
  have hle : t.level ≤ 4 := by
    generalize t.level = k at h
    cases h <;> decide
  cases t with
  | binary o l r =>
    rw [flatText, splitPoints_binary h hwf hs]
    exact List.concat_ne_nil _ _
  | signed negative t =>
    have hfirst : tier = .additive := by
      cases h
      rfl
    rw [hfirst]
    have hsplit := splitPoints_signed hwf hs
    rw [List.nil_append] at hsplit
    rw [flatText, hsplit]
    exact List.cons_ne_nil _ _
  | factorial t => exact absurd hle (by simp [level])
  | _ => exact absurd hle (by simp [level])

end Tree

end Reckoner

import Reckoner.Proofs.Homomorphism
import Reckoner.Proofs.ReportLines

/-!
# Flat chains

Numerals with operators between them, in any number and any mixture. A tier splits a chain at
its own operators only, since neither a numeral nor the sign of an exponent splits, and each
operand is a chain that has operators of tighter tiers only (`Chain.lastCut`). On the way down
the tiers that have been passed do not split it again, so an operand goes one level deeper for
each tier that is left, however long the chain is (`shallow_tiersFrom`).
-/

namespace Reckoner

open Eval

/-! ## Chains -/

/-- Unsigned numerals in a row, with operators between them that are allowed. -/
inductive Chain (allowed : Operator → Prop) : Text → Prop where
  | number {n : Numeral} (hn : n.Regular) : Chain allowed n.text
  | join {l : Text} (hl : Chain allowed l) {o : Operator} (ho : allowed o) {n : Numeral}
    (hn : n.Regular) : Chain allowed (l ++ o.symbol :: n.text)

/-- The operators of some tiers. -/
def Among (tiers : List Tier) (o : Operator) : Prop := ∃ tier ∈ tiers, o ∈ tier.operators

namespace Chain

variable {allowed tighter : Operator → Prop} {t : Text} {tier : Tier}

theorem mono (h : Chain allowed t) (hall : ∀ o, allowed o → tighter o) : Chain tighter t := by
  induction h with
  | number hn => exact .number hn
  | join _ ho hn ih => exact .join ih (hall _ ho) hn

theorem not_isBracket (h : Chain allowed t) : ∀ c ∈ t, isBracket c = false := by
  have hnumber : ∀ {n : Numeral}, n.Regular → ∀ c ∈ n.text, isBracket c = false :=
    fun hn c hc => isBracket_of_isNumberChar (isNumberChar_of_mem_text hn c hc)
  induction h with
  | number hn => exact hnumber hn
  | @join l _ o _ n hn ih =>
    intro c hc
    rcases List.mem_append.mp hc with hc | hc
    · exact ih c hc
    · rcases List.mem_cons.mp hc with rfl | hc
      · exact isBracket_symbol o
      · exact hnumber hn c hc

theorem depthOver_eq (h : Chain allowed t) : depthOver 0 t = 0 :=
  (Sealed.of_forall fun c hc => ⟨h.not_isBracket c hc, trivial⟩ :
    Sealed (fun _ => True) t).depthOver_eq 0

/-- A chain ends as a numeral does, so what follows it is no sign. -/
theorem lastOf_eq (h : Chain allowed t) (previous : Option Char) :
    ∃ c, lastOf previous t = some c ∧ IsNumberEnd c := by
  cases h with
  | number hn => exact lastOf_signedNumeral hn false previous
  | join _ _ hn =>
    rw [lastOf_append, lastOf_cons]
    exact lastOf_signedNumeral hn false _

/-- A tier without operators in a chain does not split it. -/
theorem unsplit (h : Chain allowed t) (ht : tier ∈ Tier.all)
    (hnone : ∀ o ∈ tier.operators, ¬allowed o) (previous : Option Char) :
    Unsplit tier.symbols tier.signed 0 previous t := by
  induction h generalizing previous with
  | number hn => exact unsplit_number hn false ht previous
  | @join l hl o ho n hn ih =>
    refine (ih previous).append ?_
    rw [hl.depthOver_eq]
    have hforeign : o ∉ tier.operators := fun hmem => hnone o hmem ho
    refine .cons (fun _ => isSplit_of_not_mem (symbol_not_mem_symbols hforeign)) ?_
    rw [depthAfter_of_not_isBracket (isBracket_symbol o)]
    exact unsplit_number hn false ht _

/-- An operator of a tier splits, if only tighter ones follow it. -/
theorem splitPoints_snoc {l r : Text} {o : Operator} (hl : Chain allowed l)
    (hr : Chain tighter r) (ht : tier ∈ Tier.all) (ho : o ∈ tier.operators)
    (hnone : ∀ o ∈ tier.operators, ¬tighter o) :
    splitPoints tier.symbols tier.signed (l ++ o.symbol :: r) =
      splitPoints tier.symbols tier.signed l ++ [l.length] := by
  obtain ⟨c, hlast, hend⟩ := hl.lastOf_eq none
  refine Reckoner.splitPoints_snoc hl.depthOver_eq ?_ (hr.unsplit ht hnone _)
  rw [hlast]
  simp [isSplit, symbol_mem_symbols ho, isBracket_symbol, not_isSignLead_of_isNumberEnd hend]

/-- A chain has operators of tighter tiers only, or it is cut at its last looser one. -/
theorem lastCut (h : Chain allowed t) (hcases : ∀ o, allowed o → o ∈ tier.operators ∨ tighter o) :
    Chain tighter t ∨ ∃ l o r, t = l ++ o.symbol :: r ∧ o ∈ tier.operators ∧ Chain allowed l ∧
      Chain tighter r := by
  induction h with
  | number hn => exact .inl (.number hn)
  | @join l hl o ho n hn ih =>
    rcases hcases o ho with hown | htighter
    · exact .inr ⟨l, o, n.text, rfl, hown, hl, .number hn⟩
    · rcases ih with hall | ⟨l', o', r', rfl, hown, hl', hr'⟩
      · exact .inl (.join hall htighter hn)
      · refine .inr ⟨l', o', r' ++ o.symbol :: n.text, ?_, hown, hl', .join hr' htighter hn⟩
        rw [List.append_assoc, List.cons_append]

end Chain

/-- No operator is in two tiers. -/
theorem pairwise_tiers : Tier.all.Pairwise fun looser tier => ∀ o ∈ looser.operators,
    o ∉ tier.operators := by decide

theorem among_all (o : Operator) : Among Tier.all o := by
  cases o <;> simp [Among, Tier.all, Tier.additive, Tier.multiplicative, Tier.powers,
    Tier.diceAndModulo]

/-- Looser tiers do not split a chain of tighter ones. -/
theorem Chain.unsplitBy {looser tiers : List Tier} (htiers : looser ++ tiers = Tier.all) {t : Text}
    (h : Chain (Among tiers) t) : UnsplitBy looser t := by
  intro tier htier
  refine h.unsplit (htiers ▸ List.mem_append_left _ htier) ?_ none 0
  rintro o ho ⟨tier', htier', ho'⟩
  have hapart := (List.pairwise_append.mp (htiers ▸ pairwise_tiers)).2.2
  exact hapart tier htier tier' htier' o ho ho'

/-! ## Shallow steps -/

variable {σ α : Type} {room : Nat} {setting : Setting σ}

namespace Eval

namespace StaysShallow

theorem finishCut (left right : Float) (cut : Cut) :
    StaysShallow room (Eval.finishCut setting left right cut) :=
  (combine _ _ _ _).sequence fun result => guarded <| sequence
    (fun s => .add s fun most h => by cases h) fun _ => answer _

theorem readNumeral {n : Numeral} (hn : n.Regular) :
    StaysShallow (σ := σ) room (readLiteral n.text) := by
  have hread : readLiteral (σ := σ) n.text = _ := readLiteral_signedNumeral hn false
  rw [hread]
  cases n.toDouble? false with
  | none => exact refuse fun most h => by cases h
  | some x => exact answer _

end StaysShallow

end Eval

/-! ## Chains are shallow -/

open StaysShallow

/-- **A chain in a tier.** The tier cuts it at operators of its own; what lies between them are
chains of tighter operators, and its value is no deeper than theirs. -/
theorem shallow_splitTier {recur : Recur σ} (hstops : ∀ entry t, Stops IsOne (recur entry t))
    {tier : Tier} (htier : tier ∈ Tier.all) {allowed tighter : Operator → Prop}
    (hcases : ∀ o, allowed o → o ∈ tier.operators ∨ tighter o)
    (hnone : ∀ o ∈ tier.operators, ¬tighter o) {next : Text → Eval σ Float}
    (hnext : ∀ {u}, Chain tighter u → StaysShallow room (next u))
    (hoperand : ∀ {u}, Chain tighter u → StaysShallow room (operand recur tier.neutral u))
    {t : Text} (ht : Chain allowed t) :
    StaysShallow room (splitTier setting recur tier next t) := by
  induction hlength : t.length using Nat.strong_induction_on generalizing t with
  | _ length ih =>
    rcases ht.lastCut hcases with htight | ⟨l, o, r, rfl, ho, hl, hr⟩
    · rw [splitTier_of_unsplit (htight.unsplit htier hnone none 0)]
      exact (hnext htight).guarded
    · rw [splitTier_snoc hstops (hl.splitPoints_snoc hr htier ho hnone)]
      refine StaysShallow.sequence ?_ fun x => guarded ?_
      · rw [leftPart]
        split_ifs with hunsplit
        · -- without a cut of its own the left part is an operand
          rcases hl.lastCut hcases with htight | ⟨l', o', r', rfl, ho', hl', hr'⟩
          · exact (hoperand htight).guarded
          · rw [hl'.splitPoints_snoc hr' htier ho' hnone] at hunsplit
            exact absurd hunsplit (by simp)
        · exact ih l.length (by simp [← hlength]) hl rfl
      · exact (hoperand hr).sequence fun right => (StaysShallow.finishCut _ _ _).guarded

/-- **A chain in its tiers.** With one level for each of the tiers that have operators in it, a
chain is evaluated without reaching a deeper one. -/
theorem shallow_tiersFrom {levels : Nat} {looser tiers : List Tier}
    (htiers : looser ++ tiers = Tier.all) (hlevels : tiers.length ≤ levels) {t : Text}
    (ht : Chain (Among tiers) t) :
    StaysShallow tiers.length (tiersFrom setting (descend setting levels) tiers t) := by
  induction tiers generalizing looser levels t with
  | nil =>
    cases ht with
    | @number n hn =>
      have hread : factorialTier (descend setting levels) n.text =
          unlessFailed (readLiteral n.text) := factorialTier_signedNumeral hn false
      rw [tiersFrom, hread]
      exact (readNumeral hn).guarded
    | join _ ho =>
      obtain ⟨tier, htier, -⟩ := ho
      cases htier
  | cons tier tighter ih =>
    have hpassed : (looser ++ [tier]) ++ tighter = Tier.all := by
      rw [List.append_assoc]
      exact htiers
    have hapart := (List.pairwise_append.mp (htiers ▸ pairwise_tiers)).2.1
    have hnone : ∀ o ∈ tier.operators, ¬Among tighter o := by
      rintro o ho ⟨tier', htier', ho'⟩
      exact (List.pairwise_cons.mp hapart).1 tier' htier' o ho ho'
    refine shallow_splitTier (stops_descend setting levels)
      (htiers ▸ List.mem_append_right _ List.mem_cons_self) (by simp [Among]) hnone
      (fun hu => (ih hpassed (Nat.le_of_succ_le hlevels) hu).mono (Nat.le_succ _)) ?_ ht
    -- an operand passes the tiers that are done with, and needs a level for itself
    intro u hu
    obtain ⟨below, rfl⟩ := Nat.exists_eq_add_of_le' (Nat.le_of_add_left_le hlevels)
    have hinner := ih hpassed (Nat.le_of_succ_le_succ hlevels) hu
    rw [← tiersFrom_append (hu.unsplitBy hpassed), hpassed, ← operators_eq_tiersFrom] at hinner
    exact hinner.nested.guarded.operand _

/-- The whole of a chain has no group in it, and takes a level itself. -/
theorem shallow_evaluate (hdepth : 5 ≤ setting.limits.maxDepth) {t : Text}
    (ht : Chain (fun _ => True) t) : StaysShallow 5 (evaluate setting t) := by
  obtain ⟨levels, hlevels⟩ : ∃ levels, setting.limits.maxDepth.toNat = levels + 1 :=
    ⟨setting.limits.maxDepth.toNat - 1, by omega⟩
  have hnot : ∀ c, isBracket c = true → c ∉ t := fun c hc hmem =>
    absurd hc (by simp [ht.not_isBracket c hmem])
  have hsquare : t.count '[' = t.count ']' := by
    rw [List.count_eq_zero_of_not_mem (hnot '[' (by decide)),
      List.count_eq_zero_of_not_mem (hnot ']' (by decide))]
  have htiers : StaysShallow Tier.all.length (operators setting (descend setting levels) t) :=
    shallow_tiersFrom (List.nil_append _) (show 4 ≤ levels by omega)
      (ht.mono fun o _ => among_all o)
  rw [evaluate, topmost, hlevels, descend, step, groupsThenOperators,
    resolveGroups_of_no_group (hnot '(' (by decide)) (hnot ')' (by decide)) hsquare, pure_bind]
  exact htiers.guarded.nested.guarded

/-- Where there is nothing to evaluate, or too much, no level is taken at all. -/
theorem shallow_evaluateBare (hdepth : 5 ≤ setting.limits.maxDepth) {t : Text}
    (h : t = [] ∨ Chain (fun _ => True) t) : StaysShallow 5 (evaluateBare setting t) := by
  unfold Eval.evaluateBare
  split_ifs with hempty
  · exact (enter fun most h => by cases h).sequence fun _ => answer _
  · exact (enter fun most h => by cases h).sequence fun _ => answer _
  · have ht := h.resolve_left (mt List.isEmpty_iff.mpr hempty)
    refine (shallow_evaluate hdepth ht).sequence fun value =>
      StaysShallow.sequence (respects 5).flag fun isFailed => ?_
    dsimp only
    split_ifs
    · exact (enter fun most h => by cases h).sequence fun _ => answer _
    · exact answer _

/-- **Flat chains.** However long a chain of numerals is and whatever operators are in it, no
limit of five levels or more is in its way, and it takes five at most. A stack may cut it short,
but does not make it deeper. -/
theorem evaluateExpression_flatChain (stack : Stack) (hdepth : 5 ≤ setting.limits.maxDepth)
    (dice : σ) {expression : Text}
    (h : expression.withoutBlanks = [] ∨ Chain (fun _ => True) expression.withoutBlanks) :
    (∀ most, .problem (.tooDeep most) ∉ entriesMade setting dice expression stack) ∧
      (lastState ((evaluateBare setting expression.withoutBlanks : Eval σ Float stack)
        { dice })).deepest ≤ 5 := by
  have hrun := shallow_evaluateBare hdepth h { dice }
  have hcut := (truncatedAtMost_evaluateBare stack setting expression.withoutBlanks).truncated
    { dice } (le_refl 0)
  refine ⟨fun most hmem => ?_, hcut.deepest.trans hrun.reach⟩
  rcases mem_entriesMade hmem with hmem | hmem
  · cases hrun.granted most (hcut.events.subset hmem)
  · cases hmem

/-- A chain of all tiers, with a signed exponent, in the usual limits. -/
theorem evaluateExpression_flatChain_exponent :
    5 ≤ usual.limits.maxDepth ∧
      Chain (fun _ => True) ['1', 'E', '+', '2', '-', '2', 'd', '3', '^', '2', '*', '.', '5'] ∧
      (∀ most, .problem (.tooDeep most) ∉ entriesMade usual .low
        ['1', 'E', '+', '2', ' ', '-', ' ', '2', 'd', '3', '^', '2', '*', '.', '5']) ∧
      (lastState (evaluateBare usual
        ['1', 'E', '+', '2', '-', '2', 'd', '3', '^', '2', '*', '.', '5']
        ({ dice := .low } : Progress Feed))).deepest ≤ 5 := by
  have htwo : (Numeral.mk ['2'] [] []).Regular := Numeral.regular_digit (by decide)
  have hthree : (Numeral.mk ['3'] [] []).Regular := Numeral.regular_digit (by decide)
  have hhundred : (Numeral.mk ['1'] [] ['E', '+', '2']).Regular :=
    { whole := by decide
      fraction := .inl rfl
      nonempty := .inl (by decide)
      exponent := .inr ⟨_, rfl, ['+'], ['2'], rfl, .inr (.inl rfl), by decide, by decide⟩ }
  have hhalf : (Numeral.mk [] ['.', '5'] []).Regular :=
    { whole := by decide
      fraction := .inr ⟨['5'], rfl, by decide⟩
      nonempty := .inr (by decide)
      exponent := .inl rfl }
  have hchain : Chain (fun _ => True)
      ['1', 'E', '+', '2', '-', '2', 'd', '3', '^', '2', '*', '.', '5'] :=
    .join (o := .times) (.join (o := .power) (.join (o := .dice) (.join (o := .minus)
      (.number hhundred) trivial htwo) trivial hthree) trivial htwo) trivial hhalf
  have hbare : Text.withoutBlanks ['1', 'E', '+', '2', ' ', '-', ' ', '2', 'd', '3', '^', '2', '*',
      '.', '5'] = ['1', 'E', '+', '2', '-', '2', 'd', '3', '^', '2', '*', '.', '5'] := by decide
  have hflat := @evaluateExpression_flatChain _ usual .ample (by decide) .low _
    (.inr (hbare.symm ▸ hchain))
  rw [hbare] at hflat
  exact ⟨by decide, hchain, hflat⟩

/-- Five levels are taken where an operand has an operator of every tighter tier. -/
example : (lastState (evaluateBare usual ['1', '+', '2', '*', '0', '^', '0', 'd', '5']
    ({ dice := .low } : Progress Feed))).deepest = 5 := by decide +kernel

end Reckoner

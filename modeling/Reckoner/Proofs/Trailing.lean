import Reckoner.Proofs.Ending
import Reckoner.Proofs.FlatChain
import Reckoner.Proofs.LastSplit
import Reckoner.Proofs.Number.Neutral
import Reckoner.Proofs.OtherLimits
import Reckoner.Proofs.Overflow

/-!
# An operator at the end

The right operand of an operator that nothing follows is left out, and the neutral value of its
tier stands for it. Which part of the text the operator is applied to depends on its tier: the
tiers before it hand on what is behind their last split point (`echoes_tiersFrom`), and its own
tier takes all it is given as the left operand, one level deeper if nothing split it before. The
operand comes to the number it came to without the operator; only the sign of a zero may change,
and of the operators before it none but a sum, a difference, a product or a quotient is applied
to that zero (`echoes_finishCut`).
-/

namespace Reckoner

open Eval

variable {σ α : Type}

/-! ## Runs that roll the same -/

/-- Two states with the same dice and the same roll lines, both with a problem or both without. -/
structure SameRolls (s s' : Progress σ) : Prop extends Alike True s s' where
  rolls : s'.ledger.rolls = s.ledger.rolls

namespace SameRolls

variable {s s' t t' : Progress σ}

theorem tracks (h : SameRolls s s') (ht : Tracks True s t s' t') : SameRolls t t' := by
  obtain ⟨xs, xs', hx, hx', -, hexact⟩ := ht.entries
  refine ⟨ht.alike, ?_⟩
  have hrolls : s'.ledger.events.filterMap Event.roll? = s.ledger.events.filterMap Event.roll? :=
    h.rolls
  rw [Ledger.rolls, Ledger.rolls, hx, hx', hexact trivial, List.filterMap_append,
    List.filterMap_append, hrolls]

theorem rolls_add_step (s : Progress σ) (step : Step) :
    (s.add (.step step)).ledger.rolls = s.ledger.rolls := by
  rw [Ledger.rolls, Progress.add_events, List.filterMap_append]
  exact List.append_nil _

/-- A step more or less does not matter. -/
theorem step (h : SameRolls s s') (step : Step) : SameRolls s (s'.add (.step step)) where
  dice := h.dice
  failed := (Progress.failed_add_step s' step).trans h.failed
  shown := h.shown
  depth := h.depth
  rolls := (rolls_add_step s' step).trans h.rolls

theorem step_left (h : SameRolls s s') (step : Step) : SameRolls (s.add (.step step)) s' where
  dice := h.dice
  failed := h.failed.trans (Progress.failed_add_step s step).symm
  shown := h.shown
  depth := h.depth
  rolls := h.rolls.trans (rolls_add_step s step).symm

end SameRolls

/-- Where the first evaluation ends without a problem, so does the second one, with the same
number and the same rolls. -/
def Echoes (m m' : Eval σ Float) : Prop :=
  ∀ ⦃s s' u : Progress σ⦄ ⦃x : Float⦄, SameRolls s s' → m s = .ok x u → u.failed = false →
    ∃ x' u', m' s' = .ok x' u' ∧ SameNumber x' x ∧ SameRolls u u'

section Echo

variable {setting setting' : Setting σ} {lost : Problem → Prop} {m m' : Eval σ Float}

theorem Echoes.guarded (h : Echoes m m') : Echoes (unlessFailed m) (unlessFailed m') := by
  intro s s' u x hsame hrun hu
  obtain ⟨hs, hrun⟩ := unlessFailed_eq_ok hrun hu
  obtain ⟨x', u', hrun', hx, hsame'⟩ := h hsame hrun hu
  exact ⟨x', u', by rw [unlessFailed_of_not_failed (hsame.failed.trans hs), hrun'], hx, hsame'⟩

theorem Echoes.nested (h : Echoes m m') : Echoes (nested m) (nested m') := by
  intro s s' u x hsame hrun hu
  obtain ⟨-, v, hinner, rfl⟩ := nested_eq_ok.mp hrun
  have hdeeper : SameRolls (deeper s) (deeper s') :=
    ⟨.of_ample hsame.dice hsame.failed hsame.shown, hsame.rolls⟩
  obtain ⟨x', v', hrun', hx, hsame'⟩ := h hdeeper hinner hu
  refine ⟨x', _, nested_eq_ok.mpr ⟨rfl, v', hrun', rfl⟩, hx, ?_⟩
  exact ⟨.of_ample hsame'.dice hsame'.failed hsame'.shown, hsame'.rolls⟩

theorem Echoes.bind {k k' : Float → Eval σ Float} (h : Echoes m m')
    (hk : ∀ {x x'}, SameNumber x' x → Echoes (k x) (k' x')) :
    Echoes (m >>= fun x => unlessFailed (k x)) (m' >>= fun x => unlessFailed (k' x)) := by
  intro s s' u z hsame hrun hu
  obtain ⟨x, v, hm, hrun⟩ := bind_eq_ok.mp hrun
  obtain ⟨x', v', hm', hx, hsame'⟩ := h hsame hm (unlessFailed_eq_ok hrun hu).1
  obtain ⟨z', u', hrun', hz, hsame''⟩ := (hk hx).guarded hsame' hrun hu
  exact ⟨z', u', by rw [bind_of_ok hm', hrun'], hz, hsame''⟩

theorem echoes_note (step step' : Step) {x x' : Float} (hx : SameNumber x' x) :
    Echoes (σ := σ) (do note step; return x) (do note step'; return x') := by
  intro s s' u z hsame hrun _
  rw [note_bind] at hrun
  cases hrun
  exact ⟨x', _, note_bind step' _ s', hx, (hsame.step_left step).step step'⟩

theorem Follows.sameRolls {s s' u : Progress σ} {x : Float}
    (h : Follows setting lost True m m') (hsame : SameRolls s s') (hrun : m s = .ok x u)
    (hu : u.failed = false) : ∃ u', m' s' = .ok x u' ∧ SameRolls u u' := by
  obtain ⟨u', hrun', htracks⟩ := h.run hsame.toAlike hrun hu
  exact ⟨u', hrun', hsame.tracks htracks⟩

/-- After a run that is followed exactly the values are the same doubles. -/
theorem Follows.bind_echoes {k k' : Float → Eval σ Float} (h : Follows setting lost True m m')
    (hk : ∀ x, Echoes (k x) (k' x)) :
    Echoes (m >>= fun x => unlessFailed (k x)) (m' >>= fun x => unlessFailed (k' x)) := by
  intro s s' u z hsame hrun hu
  obtain ⟨x, v, hm, hrun⟩ := bind_eq_ok.mp hrun
  obtain ⟨v', hm', hsame'⟩ := h.sameRolls hsame hm (unlessFailed_eq_ok hrun hu).1
  obtain ⟨z', u', hrun', hz, hsame''⟩ := (hk x).guarded hsame' hrun hu
  exact ⟨z', u', by rw [bind_of_ok hm', hrun'], hz, hsame''⟩

/-! ## Neutral operands -/

/-- The operators whose tier has a value that they leave every number alone with. -/
def Operator.HasNeutral (o : Operator) : Prop := o ∈ [plus, minus, times, divide, power]

/-- A finite power needs no check. -/
theorem power_one {x : Float} (h : SameNumber (x.pow 1.0) x) : power x 1.0 = .ok (x.pow 1.0) := by
  by_cases hfinite : (x.isFinite && Float.isFinite 1.0) = true
  · obtain ⟨hnan, hinf⟩ := checks_of_isFinite (h.isFinite (Bool.and_eq_true_iff.mp hfinite).1)
    simp only [power, hfinite, hnan, hinf, if_true, if_false, Bool.false_eq_true]
  · simp only [power, hfinite, Bool.false_eq_true, if_false]

theorem combine_neutral {tier : Tier} {o : Operator} (htier : tier ∈ Tier.all)
    (ho : o ∈ tier.operators) (hneutral : o.HasNeutral)
    (hpower : o = .power → ∀ x : Float, SameNumber (x.pow 1.0) x) (x : Float) (fragment : Text)
    (s : Progress σ) :
    ∃ z, combine setting o x tier.neutral fragment s = .ok z s ∧ SameNumber z x := by
  have hone : ((1.0 : Float) == 0) = false := by decide
  have htiers : tier = .additive ∨ tier = .multiplicative ∨ tier = .powers ∨
      tier = .diceAndModulo := by simpa [Tier.all] using htier
  rcases htiers with rfl | rfl | rfl | rfl
  · have hcases : o = .plus ∨ o = .minus := by simpa [Tier.additive] using ho
    rcases hcases with rfl | rfl
    · exact ⟨x + 0.0, rfl, sameNumber_add_zero x⟩
    · exact ⟨x - 0.0, rfl, .inl (sub_zero_eq x)⟩
  · have hcases : o = .times ∨ o = .divide := by simpa [Tier.multiplicative] using ho
    rcases hcases with rfl | rfl
    · exact ⟨x * 1.0, rfl, .inl (mul_one_eq x)⟩
    · refine ⟨x / 1.0, ?_, .inl (div_one_eq x)⟩
      show Eval.divide x 1.0 fragment s = _
      rw [Eval.divide, hone, if_neg Bool.false_ne_true]
      rfl
  · have hcases : o = .power := by simpa [Tier.powers] using ho
    subst hcases
    have hsame := hpower rfl x
    refine ⟨x.pow 1.0, ?_, hsame⟩
    show raise x 1.0 fragment s = _
    rw [raise, hone, Bool.and_false, if_neg Bool.false_ne_true, power_one hsame]
    rfl
  · exfalso
    simp [Tier.diceAndModulo, Operator.HasNeutral] at ho hneutral
    rcases ho with rfl | rfl <;> simp at hneutral

/-- An operator without its right operand changes nothing but the sign of a zero. -/
theorem applyCut_neutral {recur : Recur σ} {tier : Tier} {o : Operator} (htier : tier ∈ Tier.all)
    (ho : o ∈ tier.operators) (hneutral : o.HasNeutral)
    (hpower : o = .power → ∀ x : Float, SameNumber (x.pow 1.0) x) (x : Float) (fragment : Text)
    {s : Progress σ} (hs : s.failed = false) :
    ∃ z step, applyCut setting recur tier.neutral x { operator := o, right := [], fragment } s =
      .ok z (s.add (.step step)) ∧ SameNumber z x := by
  obtain ⟨z, hrun, hz⟩ := @combine_neutral σ setting tier o htier ho hneutral hpower x fragment s
  have hright : operand recur tier.neutral [] s = .ok tier.neutral s := rfl
  refine ⟨z, .binary x o.symbol tier.neutral z fragment, ?_, hz⟩
  rw [applyCut, bind_of_ok hright, unlessFailed_of_not_failed hs, finishCut_apply, hrun]
  dsimp only
  rw [hs, if_neg Bool.false_ne_true]

theorem Follows.echoes_neutral {recur : Recur σ} {tier : Tier} {o : Operator}
    (h : Follows setting lost True m m') (htier : tier ∈ Tier.all) (ho : o ∈ tier.operators)
    (hneutral : o.HasNeutral) (hpower : o = .power → ∀ x : Float, SameNumber (x.pow 1.0) x)
    (fragment : Text) :
    Echoes m (m' >>= fun x => unlessFailed
      (applyCut setting' recur tier.neutral x { operator := o, right := [], fragment })) := by
  intro s s' u x hsame hrun hu
  obtain ⟨u', hrun', hsame'⟩ := h.sameRolls hsame hrun hu
  have hu' : u'.failed = false := hsame'.failed.trans hu
  obtain ⟨z, step, hcut, hz⟩ :=
    @applyCut_neutral σ setting' recur tier o htier ho hneutral hpower x fragment u' hu'
  exact ⟨z, _, by rw [bind_of_ok hrun', unlessFailed_of_not_failed hu', hcut], hz, hsame'.step step⟩

/-! ## A right operand that is the same number -/

theorem echoes_combine {o : Operator} (ho : o ∈ [Operator.plus, .minus, .times, .divide])
    {y y' : Float} (hy : SameNumber y' y) (x : Float) (fragment fragment' : Text) :
    Echoes (combine setting o x y fragment) (combine setting' o x y' fragment') := by
  intro s s' u z hsame hrun hu
  have hcases : o = .plus ∨ o = .minus ∨ o = .times ∨ o = .divide := by simpa using ho
  rcases hcases with rfl | rfl | rfl | rfl
  · cases hrun
    exact ⟨x + y', s', rfl, hy.add x, hsame⟩
  · cases hrun
    exact ⟨x - y', s', rfl, hy.sub x, hsame⟩
  · cases hrun
    exact ⟨x * y', s', rfl, hy.mul x, hsame⟩
  · change Eval.divide x y fragment s = .ok z u at hrun
    unfold Eval.divide at hrun
    split_ifs at hrun with hzero
    · exact absurd hrun (refuse_ne_ok hu _)
    · cases hrun
      refine ⟨x / y', s', ?_, .inl (hy.div (by simpa using hzero) x), hsame⟩
      show Eval.divide x y' fragment' s' = _
      rw [Eval.divide, hy.beq_zero, if_neg hzero]
      rfl

theorem echoes_finishCut {cut cut' : Cut} (hcut : cut'.operator = cut.operator)
    (ho : cut.operator ∈ [Operator.plus, .minus, .times, .divide])
    {y y' : Float} (hy : SameNumber y' y) (x : Float) :
    Echoes (finishCut setting x y cut) (finishCut setting' x y' cut') := by
  rw [finishCut, finishCut, hcut]
  exact (echoes_combine ho hy x _ _).bind fun hz => echoes_note _ _ hz

/-! ## Tiers -/

variable (hv : Varied setting setting' lost True) (hdeep : ∀ most, lost (.tooDeep most))
include hv hdeep

theorem follows_leftPart (levels extra : Nat) (tier : Tier) (tiers : List Tier) (t : Text) :
    Follows setting lost True
      (leftPart setting (descend setting levels) tier
        (tiersFrom setting (descend setting levels) tiers) t)
      (leftPart setting' (descend setting' (levels + extra)) tier
        (tiersFrom setting' (descend setting' (levels + extra)) tiers) t) := by
  have h := @Follows.congruence σ .ample _ _ _ _ hv
  unfold leftPart
  split_ifs
  · exact h.unlessFailed (h.operand (follows_descend hv hdeep levels extra) _ t)
  · exact follows_tiersFrom hv hdeep levels extra (tier :: tiers) t

/-- What a tier evaluates as its own text is its left operand, with an operator after it. That
is one level deeper if nothing splits it. -/
theorem follows_leftPart_whole {looser tighter : List Tier} {tier : Tier}
    (htiers : Tier.all = looser ++ tier :: tighter) (levels : Nat) {t : Text}
    (hlooser : UnsplitBy looser t) (ht : t ≠ []) :
    Follows setting lost True
      (tiersFrom setting (descend setting levels) (tier :: tighter) t)
      (leftPart setting' (descend setting' (levels + 1)) tier
        (tiersFrom setting' (descend setting' (levels + 1)) tighter) t) := by
  have h := @Follows.congruence σ .ample _ _ _ _ hv
  unfold leftPart
  split_ifs with hsplit
  · have hinner := h.operators (follows_descend hv hdeep levels 0) t
    rw [operators_of_unsplitBy htiers hlooser hsplit] at hinner
    rw [tiersFrom, splitTier_of_unsplit hsplit, operand_of_ne_nil _ _ ht, descend,
      unlessFailed_unlessFailed]
    exact h.unlessFailed hinner.nested_right
  · exact follows_tiersFrom hv hdeep levels 1 (tier :: tighter) t

omit hv hdeep in
/-- An operator at the end splits in its own tier, since it is not taken for a sign. -/
theorem splitPoints_ended {tier : Tier} {o : Operator} (ho : o ∈ tier.operators) {t : Text}
    (hdepth : depthOver 0 t = 0) (hend : EndsOperand t) :
    splitPoints tier.symbols tier.signed (t ++ [o.symbol]) =
      splitPoints tier.symbols tier.signed t ++ [t.length] := by
  obtain ⟨c, hc, hlead⟩ := hend
  refine splitPoints_snoc hdepth ?_ (unsplit_nil _ _)
  rw [lastOf_none, hc]
  simp [isSplit, symbol_mem_symbols ho, isBracket_symbol, hlead]

omit hv hdeep in
theorem unsplit_foreign {tier : Tier} {o : Operator} (ho : o ∉ tier.operators) (depth : Int)
    (previous : Option Char) : Unsplit tier.symbols tier.signed depth previous [o.symbol] :=
  .cons (fun _ => isSplit_of_not_mem (symbol_not_mem_symbols ho)) (unsplit_nil _ _)

omit hv hdeep in
theorem splitPoints_foreign {tier : Tier} {o : Operator} (ho : o ∉ tier.operators) (t : Text) :
    splitPoints tier.symbols tier.signed (t ++ [o.symbol]) =
      splitPoints tier.symbols tier.signed t := by
  rw [splitPoints, splitPointsFrom_append, unsplit_foreign ho, List.append_nil]
  rfl

omit hv hdeep in
/-- What is behind the last split point of a text that ends like an operand. -/
theorem exists_ended_split {tier : Tier} {t : Text} (hdepth : depthOver 0 t = 0)
    (hend : EndsOperand t) (hsplit : splitPoints tier.symbols tier.signed t ≠ []) :
    ∃ l o r, t = l ++ o.symbol :: r ∧ o ∈ tier.operators ∧ EndsOperand r ∧ depthOver 0 r = 0 ∧
      splitPoints tier.symbols tier.signed (l ++ o.symbol :: r) =
        splitPoints tier.symbols tier.signed l ++ [l.length] := by
  obtain ⟨l, c, r, rfl, hc, hlast⟩ := exists_last_split hsplit
  rw [Nat.zero_add] at hlast
  obtain ⟨o, ho, rfl⟩ := List.mem_map.mp hc
  obtain ⟨hleft, -, -⟩ := of_splitPoints_snoc hlast
  refine ⟨l, o, r, rfl, ho, ?_, ?_, hlast⟩
  · have hbehind := hend.of_append (List.cons_ne_nil _ _)
    by_cases hr : r = []
    · obtain ⟨d, hd, hlead⟩ := hbehind
      rw [hr, List.getLast?_singleton] at hd
      rw [← Option.some.inj hd, isSignLead_symbol] at hlead
      cases hlead
    · exact EndsIn.of_append (l := [o.symbol]) hbehind hr
  · rwa [depthOver_append, hleft, depthOver_cons,
      depthAfter_of_not_isBracket (isBracket_symbol o)] at hdepth

section Ended

variable {o : Operator} (hneutral : o.HasNeutral)
  (hpower : o = .power → ∀ x : Float, SameNumber (x.pow 1.0) x)
include hneutral

omit hv hdeep in
/-- Before the tier of an operator with a neutral value come sums, differences, products and
quotients only. -/
theorem arithmetic_of_looser {looser tighter : List Tier} {tier : Tier}
    (htiers : Tier.all = looser ++ tier :: tighter) (hmember : Among tighter o) {o' : Operator}
    (ho' : o' ∈ tier.operators) : o' ∈ [Operator.plus, .minus, .times, .divide] := by
  obtain ⟨tier', htier', ho⟩ := hmember
  have hlast : tier' ≠ .diceAndModulo := by
    rintro rfl
    simp only [Tier.diceAndModulo, List.mem_cons, List.not_mem_nil, or_false] at ho
    rcases ho with rfl | rfl <;> simp [Operator.HasNeutral] at hneutral
  rcases looser with - | ⟨a, - | ⟨b, looser⟩⟩
  all_goals simp only [Tier.all, List.nil_append, List.cons_append, List.cons.injEq] at htiers
  · rw [← htiers.1] at ho'
    exact List.mem_append_left [.times, .divide] ho'
  · rw [← htiers.2.1] at ho'
    exact List.mem_append_right [.plus, .minus] ho'
  · -- behind the powers there is one tier only, and the operator is not in it
    have htwo : tier' ∈ [Tier.diceAndModulo] := by
      rcases looser with - | ⟨c, looser⟩
      · rwa [(List.cons.inj htiers.2.2).2]
      · rw [(List.cons.inj htiers.2.2).2]
        exact List.mem_append_right looser (List.mem_cons_of_mem tier htier')
    exact absurd (List.mem_singleton.mp htwo) hlast

include hpower

/-- **An operator at the end, in the tiers.** If the right operands that looser operators have
echo with the operator at their end, then so does the text in the tiers that are left. -/
theorem echoes_tiersFrom {levels : Nat} {t : Text} (hend : EndsOperand t)
    (hdepth : depthOver 0 t = 0)
    (hright : ∀ r, r.length < t.length → EndsOperand r → depthOver 0 r = 0 →
      Echoes (descend setting levels .operand r)
        (descend setting' (levels + 1) .operand (r ++ [o.symbol])))
    {looser tiers : List Tier} (htiers : Tier.all = looser ++ tiers) (hlooser : UnsplitBy looser t)
    (hmember : Among tiers o) :
    Echoes (tiersFrom setting (descend setting levels) tiers t)
      (tiersFrom setting' (descend setting' (levels + 1)) tiers (t ++ [o.symbol])) := by
  induction tiers generalizing looser with
  | nil =>
    obtain ⟨tier, htier, -⟩ := hmember
    cases htier
  | cons tier tighter ih =>
    have htier : tier ∈ Tier.all := htiers ▸ List.mem_append_right _ List.mem_cons_self
    have hstops : ∀ entry t, Stops IsOne (descend setting' (levels + 1) entry t : Eval σ Float) :=
      stops_descend setting' (levels + 1)
    by_cases ho : o ∈ tier.operators
    · -- the operator's own tier takes all of the text as its left operand
      have hsplit := splitPoints_ended ho hdepth hend
      rw [tiersFrom, tiersFrom, splitTier_snoc hstops hsplit, Operator.ofSymbol_symbol]
      exact (follows_leftPart_whole hv hdeep htiers levels hlooser hend.ne_nil).echoes_neutral
        htier ho hneutral hpower _
    have hmember : Among tighter o := by
      obtain ⟨tier', htier', ho'⟩ := hmember
      rcases List.mem_cons.mp htier' with rfl | htier'
      · exact absurd ho' ho
      · exact ⟨tier', htier', ho'⟩
    by_cases hsplit : splitPoints tier.symbols tier.signed t = []
    · -- a tier that does not split the text hands it on with the operator
      have hsplit' : splitPoints tier.symbols tier.signed (t ++ [o.symbol]) = [] := by
        rw [splitPoints_foreign ho, hsplit]
      rw [tiersFrom, tiersFrom, splitTier_of_unsplit hsplit, splitTier_of_unsplit hsplit']
      exact (ih (htiers.trans (List.append_cons _ _ _)) (hlooser.snoc hsplit) hmember).guarded
    · -- otherwise it hands on what is behind its last split point
      obtain ⟨l, o', r, rfl, ho', hr, hrdepth, hlast⟩ := exists_ended_split hdepth hend hsplit
      have hshorter : r.length < (l ++ o'.symbol :: r).length := by
        rw [List.length_append, List.length_cons]
        omega
      obtain ⟨hleft, hsplits, hunsplit⟩ := of_splitPoints_snoc hlast
      have hlast' : splitPoints tier.symbols tier.signed (l ++ o'.symbol :: (r ++ [o.symbol])) =
          splitPoints tier.symbols tier.signed l ++ [l.length] :=
        splitPoints_snoc hleft hsplits (hunsplit.append (unsplit_foreign ho _ _))
      rw [List.append_assoc, List.cons_append, tiersFrom, tiersFrom,
        splitTier_snoc (stops_descend setting levels) hlast, splitTier_snoc hstops hlast']
      refine (follows_leftPart hv hdeep levels 1 tier tighter l).bind_echoes fun x => ?_
      have hoperand : Echoes (operand (descend setting levels) tier.neutral r)
          (operand (descend setting' (levels + 1)) tier.neutral (r ++ [o.symbol])) := by
        rw [operand_of_ne_nil _ _ hr.ne_nil, operand_of_ne_nil _ _ (by simp)]
        exact hright r hshorter hr hrdepth
      refine hoperand.bind fun hy => echoes_finishCut ?_ ?_ hy x
      · rfl
      · rw [Operator.ofSymbol_symbol]
        exact arithmetic_of_looser hneutral htiers hmember ho'

/-- **An operator at the end, without groups.** By induction on the length, since what is handed
on behind a split point is shorter; it is a level deeper with the operator and without. -/
theorem echoes_operators (levels : Nat) {t : Text} (hend : EndsOperand t)
    (hdepth : depthOver 0 t = 0) :
    Echoes (operators setting (descend setting levels) t)
      (operators setting' (descend setting' (levels + 1)) (t ++ [o.symbol])) := by
  induction hlength : t.length using Nat.strong_induction_on generalizing t levels with
  | _ length ih =>
    have hnone : UnsplitBy [] t := fun _ h => nomatch h
    refine echoes_tiersFrom hv hdeep hneutral hpower hend hdepth (fun r hr hrend hrdepth => ?_)
      rfl hnone (among_all o)
    cases levels with
    | zero =>
      intro s s' u x _ hrun hu
      obtain ⟨n, hn⟩ := exists_levels_of_clear hrun hu
      cases hn
    | succ levels => exact (ih r.length (hlength ▸ hr) levels hrend hrdepth rfl).nested.guarded

end Ended

end Echo

/-! ## Whole expressions -/

theorem depthOver_of_flat {t : Text} (h : Flat t) (hsquare : t.count '[' = t.count ']') :
    depthOver 0 t = 0 := by
  rw [h.depthOver_eq, hsquare, Int.sub_self]

theorem withoutBlanks_ended (t : Text) (o : Operator) :
    (t ++ [o.symbol]).withoutBlanks = t.withoutBlanks ++ [o.symbol] := by
  rw [withoutBlanks_append]
  simp [Text.withoutBlanks, isBlank_symbol]

theorem count_ended (t : Text) (o : Operator) {b : Char} (hb : isBracket b = true) :
    (t ++ [o.symbol]).count b = t.count b := by
  have hnone : b ∉ [o.symbol] := by
    intro hmem
    rw [List.mem_singleton.mp hmem, isBracket_symbol] at hb
    cases hb
  rw [List.count_append, List.count_eq_zero_of_not_mem hnone, Nat.add_zero]

section Whole

variable {setting : Setting σ} {dice after : σ} {t : Text} {e : Evaluation}
  (h : evaluateExpression setting dice t = .ok (e, after)) (he : e.failed = false)
  (hlast : ∀ o : Operator, t.withoutBlanks.getLast? ≠ some o.symbol)
  {o : Operator} (hneutral : o.HasNeutral)
  (hpower : o = .power → ∀ x : Float, SameNumber (x.pow 1.0) x)
include h he hlast hneutral hpower

theorem exists_ended :
    ∃ e', evaluateExpression (setting.roomier (setting.limits.maxLength + 1)) dice
        (t ++ [o.symbol]) = .ok (e', after) ∧
      e'.failed = false ∧ (e'.value == e.value) = true ∧ e'.ledger.rolls = e.ledger.rolls := by
  obtain ⟨levels, u, hlevels, hrun, hu, hfinite, hledger, rfl⟩ := exists_run_of_success h he
  obtain ⟨hne, hlength⟩ := short_of_success h he
  obtain ⟨hround, hsquare, w, v, hfold, hw, hoperators, hv, rfl⟩ := parts_of_clear hrun hu
  have hvaried := varied_roomier setting (setting.limits.maxLength + 1) (fun _ => True) True
  have hdeeper := @follows_descend σ .ample _ _ _ _ hvaried (fun _ => trivial) levels 1
  have hstart : SameRolls (deeper ({ dice } : Progress σ)) (deeper { dice }) :=
    ⟨.of_ample rfl rfl fun _ => rfl, rfl⟩
  have hends : EndsOperand (foldedText setting levels t.withoutBlanks { dice }) :=
    EndsOperand.foldGroups (stops_descend setting levels) (endsOperand_of_success h he hlast)
      hfold hw
  generalize foldedText setting levels t.withoutBlanks { dice } = flat at hfold hoperators hends
  -- the groups fold as they do without the operator
  have hfirst : timesBeside ([] : Text).getLast? = [] := rfl
  have hbehind : timesBeside [o.symbol].head? = [] := timesBeside_symbol o
  obtain ⟨w', hfold', htracks, hflat, hkeeps⟩ := foldGroups_within hfirst hbehind hdeeper
    (stops_descend setting levels) count_square_of_clear List.not_mem_nil rfl hround
    hstart.toAlike hfold hw 0
  have hdepth : depthOver 0 flat = 0 := depthOver_of_flat hflat (by omega)
  obtain ⟨x, v', hrun', hx, hsame⟩ := echoes_operators hvaried (fun _ => trivial) hneutral hpower
    levels hends hdepth (hstart.tracks htracks) hoperators hv
  have hv' : v'.failed = false := hsame.failed.trans hv
  have hw' : w'.failed = false := htracks.alike.failed.trans hw
  have hbare := withoutBlanks_ended t o
  have hcount : ∀ b, isBracket b = true →
      (t ++ [o.symbol]).withoutBlanks.count b = t.withoutBlanks.count b := fun b hb => by
    rw [hbare, count_ended _ o hb]
  rw [← hcount ')' rfl] at hfold'
  rw [List.nil_append, ← hbare] at hfold'
  have hfits : (((t ++ [o.symbol]).withoutBlanks.length : Nat) : Int) ≤
      setting.limits.maxLength + 1 := by
    rw [hbare, List.length_append]
    exact_mod_cast Int.add_le_add_right hlength 1
  have hresult := evaluateExpression_of_folded (by rw [hbare]; simp) hfits
    ((levels_roomier _ h he).trans (congrArg (· + 1) hlevels))
    (by rw [hcount _ rfl, hcount _ rfl, hround]) (by rw [hcount _ rfl, hcount _ rfl, hsquare])
    hfold' hw'
  rw [List.nil_append, hrun'] at hresult
  dsimp only at hresult
  rw [hx.isFinite hfinite, Bool.not_true, Bool.and_false, if_neg Bool.false_ne_true,
    hsame.dice] at hresult
  exact ⟨_, hresult, hv', hx.beq hfinite, hsame.rolls.trans (congrArg Ledger.rolls hledger)⟩

end Whole

/-- **A trailing operator.** Take any expression that is evaluated without a problem and does not
end with an operator, blanks aside. With an operator behind it whose tier has a neutral operand,
one level more and one character more, and room on the stack for one nested evaluation more than
it takes, it is evaluated without a problem, to a number that is equal, with the same draws and
the same roll lines. That a power of one is its base is taken from the arithmetic of doubles; the
other laws of neutral operands are proved of it. -/
theorem evaluateExpression_ended {stack : Stack} {setting : Setting σ} {dice after : σ} {t : Text}
    {e : Evaluation} (h : evaluateExpression setting dice t stack = .ok (e, after))
    (he : e.failed = false)
    (hroom : stack.hasRoom .evaluation (levelsTaken setting dice t + 1) = true)
    (hlast : ∀ o : Operator, t.withoutBlanks.getLast? ≠ some o.symbol)
    {o : Operator} (ho : o ∈ [Operator.plus, .minus, .times, .divide, .power])
    (hpower : o = .power → ∀ x : Float, SameNumber (x.pow 1.0) x) :
    ∃ e', evaluateExpression (setting.roomier (setting.limits.maxLength + 1)) dice
        (t ++ [o.symbol]) stack = .ok (e', after) ∧
      e'.failed = false ∧ (e'.value == e.value) = true ∧ e'.ledger.rolls = e.ledger.rolls ∧
      draws (setting.roomier (setting.limits.maxLength + 1)) dice (t ++ [o.symbol]) stack =
        draws setting dice t stack := by
  obtain ⟨-, hnests⟩ := success_iff_nests.mp ⟨h, he⟩
  -- with no more levels than the expression takes it is evaluated with the operator, too
  have hnarrow := success_withDepth h he (le_refl _)
  obtain ⟨e', hended, hclear, hvalue, hrolls⟩ := exists_ended hnarrow he hlast ho hpower
  obtain ⟨hsame, htaken⟩ :=
    evaluateExpression_roomier (granted_of_success hended hclear) (natCast_levelsTaken_le h he)
  obtain ⟨hrun, -⟩ := success_iff_nests.mpr
    ⟨⟨hsame.trans hended, hclear⟩, (hnests.succ hroom).mono htaken⟩
  refine ⟨e', hrun, hclear, hvalue, hrolls, ?_⟩
  -- the draws are those of the same expressions with a record
  obtain ⟨⟨hrecorded, -⟩, -⟩ := success_iff_nests.mp ⟨evaluateExpression_recording h, he⟩
  obtain ⟨⟨hrecorded', -⟩, -⟩ := success_iff_nests.mp ⟨evaluateExpression_recording hrun, hclear⟩
  obtain ⟨e'', hagain, -⟩ := exists_ended hrecorded he hlast ho hpower
  have hrecord := hrecorded'.symm.trans hagain
  exact (Prod.mk.inj (Prod.mk.inj (Except.ok.inj hrecord)).2).2

/-- The star behind `2+1d6` takes the roll for its left operand. -/
theorem evaluateExpression_ended_star :
    let t : Text := ['2', '+', '1', 'd', '6']
    (Stack.ofLevels 4).hasRoom .evaluation (levelsTaken usual .high t + 1) = true ∧
      (∀ o : Operator, t.withoutBlanks.getLast? ≠ some o.symbol) ∧
      Operator.times ∈ [Operator.plus, .minus, .times, .divide, .power] ∧
      (Operator.times = .power → ∀ x : Float, SameNumber (x.pow 1.0) x) ∧
      ∃ e e', evaluateExpression usual .high t (.ofLevels 4) = .ok (e, .high) ∧ e.failed = false ∧
        evaluateExpression (usual.roomier (usual.limits.maxLength + 1)) .high (t ++ ['*'])
          (.ofLevels 4) = .ok (e', .high) ∧
        e'.failed = false ∧ (e'.value == 8.0) = true ∧
        e'.ledger.rolls = [.rolled 1 6 [6] false 6] ∧
        draws (usual.roomier (usual.limits.maxLength + 1)) .high (t ++ ['*']) (.ofLevels 4) =
          [(6, 6)] := by
  intro t
  have hroom : (Stack.ofLevels 4).hasRoom .evaluation (levelsTaken usual .high t + 1) = true := by
    decide +kernel
  have h : evaluateExpression usual .high t (.ofLevels 4) =
      .ok ({ expression := t
             value := 8.0
             ledger :=
              { events := [.roll (.rolled 1 6 [6] false 6),
                  .step (.binary 1.0 'd' 6.0 6.0 ['1', 'd', '6']),
                  .step (.binary 2.0 '+' 6.0 8.0 ['2', '+', '1', 'd', '6'])]
                shown := 1 } }, .high) := by decide +kernel
  have hlast : ∀ o : Operator, t.withoutBlanks.getLast? ≠ some o.symbol := by
    intro o
    cases o <;> decide
  have hpower : Operator.times = .power → ∀ x : Float, SameNumber (x.pow 1.0) x := by
    intro hne
    cases hne
  obtain ⟨e', hrun, hclear, hvalue, hrolls, hdraws⟩ :=
    evaluateExpression_ended h (by decide +kernel) hroom hlast (by decide) hpower
  exact ⟨hroom, hlast, by decide, hpower, _, e', h, by decide +kernel, hrun, hclear, hvalue, hrolls,
    hdraws.trans (by decide +kernel)⟩

/-- On a stack that has just the room for an expression there is none for the same one with an
operator behind it, whatever else is allowed. -/
theorem evaluateExpression_ended_edge :
    let t : Text := "max(max(absabs1,1),1)".toList
    t.withoutBlanks.getLast? = some ')' ∧
      (evaluateExpression usual .low t (.ofLevels 5)).toOption.map
        (fun r => (r.1.value, r.1.ledger.problems)) = some (1.0, []) ∧
      ∀ o ∈ [Operator.plus, .minus, .times, .divide, .power],
        (evaluateExpression (usual.roomier (usual.limits.maxLength + 1)) .low (t ++ [o.symbol])
          (.ofLevels 5)).toOption.map (·.1.ledger.problems) = some [.tooComplex] := by
  decide +kernel

end Reckoner

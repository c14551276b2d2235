import Reckoner.Proofs.Syntax.Atom

/-!
# Reading a tree tier by tier

The tiers read the text of a tree as the tree it is. A tier goes down the left operands of its
own operators, which it finds as the last split points, and hands everything tighter to the
next tier; right operands are nested evaluations. So each tier agrees with the meaning of the
trees of its level by induction on the tree, and nested evaluations agree by induction on the
levels they have to spend.
-/

namespace Reckoner

open Eval

variable {σ : Type} {setting : Setting σ} {recur : Recur σ} {levels : Nat}

/-! ## Factorials -/

theorem agrees_factorialTier (hr : Reads levels recur) {t : Tree} (hwf : t.WellFormed)
    (hs : t.Settled) (hlevel : 5 ≤ t.level) :
    Agrees t.denote t.AllFinite (t.reading ≤ levels) (factorialTier recur t.flatText) := by
  have hatom : 6 ≤ t.level →
      Agrees t.denote t.AllFinite (t.reading ≤ levels) (factorialTier recur t.flatText) := by
    intro hsix
    obtain ⟨c, hlast, -, hc⟩ := Tree.exists_lastOf_atom hwf hs hsix none
    rw [lastOf_none] at hlast
    have hmark : (t.flatText.getLast? != some '!') = true := by
      rw [hlast]
      simpa using hc
    rw [factorialTier, hmark, if_pos rfl]
    exact (agrees_application hr hwf hs hsix).guarded
  cases t with
  | factorial u =>
    have hmark : ((Tree.factorial u).flatText.getLast? != some '!') = false := by
      rw [Tree.flatText, List.getLast?_concat]
      rfl
    have hfront : (Tree.factorial u).flatText.dropLast = u.flatText := by
      rw [Tree.flatText, List.dropLast_concat]
    have hempty : u.flatText.isEmpty = false := by
      simpa using Tree.flatText_ne_nil hwf.2 hs
    have hvalue := (hr.agrees .factorial u hwf.2 hs hwf.1).mono
      (fun h : (Tree.factorial u).AllFinite => h.of_factorial) Iff.rfl
    rw [factorialTier, hmark, if_neg Bool.false_ne_true, hfront, hempty, if_neg Bool.false_ne_true]
    refine Agrees.guarded (hvalue.finish fun x hx => ?_)
    have hsome : (Tree.factorial u).AllFinite → (factorial? x).isSome = true := fun h =>
      isSome_of_bind (f := factorial?) h.isSome hx
    exact (agrees_factorial hsome).noted fun result => .factorial x result _
  | binary o l r =>
    have ho : 5 ≤ o.level := hlevel
    have hle := o.level_le
    omega
  | signed negative u => exact absurd hlevel (by simp [Tree.level])
  | _ => exact hatom (le_refl 6)

/-! ## Binary operators -/

theorem agrees_operand (hr : Reads levels recur) (neutral : Float) {t : Tree} (hwf : t.WellFormed)
    (hs : t.Settled) :
    Agrees t.denote t.AllFinite (t.reading < levels) (operand recur neutral t.flatText) := by
  rw [operand_of_ne_nil recur neutral (Tree.flatText_ne_nil hwf hs)]
  exact hr.agrees .operand t hwf hs trivial

theorem agrees_finishCut {fine : Prop} {x y : Float} {cut : Cut} (ho : cut.operator ≠ .dice)
    (h : fine → (cut.operator.apply x y).isSome = true) :
    Agrees (cut.operator.apply x y) fine True (finishCut setting x y cut) := by
  have hnote : ∀ z, Agrees (σ := σ) (some z) fine True (do
      note (.binary x cut.operator.symbol y z cut.fragment)
      return z) := by
    intro z s hs
    exact ⟨z, s.add (.step (.binary x cut.operator.symbol y z cut.fragment)), rfl, .add s rfl,
      fun _ => rfl, fun _ => iff_of_true ((Progress.failed_add_step s _).trans hs) trivial⟩
  have hcombine : Agrees (cut.operator.apply x y) fine True
      (combine setting cut.operator x y cut.fragment) := agrees_combine ho cut.fragment h
  have hall := hcombine.finish fun z _ => hnote z
  have hsame : (cut.operator.apply x y).bind some = cut.operator.apply x y := by
    cases cut.operator.apply x y <;> rfl
  rw [hsame] at hall
  exact hall

/-- The operand of a cut, and its operator on both values. -/
theorem agrees_applyCut (hr : Reads levels recur) {fine : Prop} (neutral x : Float) {o : Operator}
    (ho : o ≠ .dice) {r : Tree} (hwf : r.WellFormed) (hs : r.Settled) (fragment : Text)
    (hfine : fine → r.AllFinite) (h : fine → (r.denote.bind (o.apply x)).isSome = true) :
    Agrees (r.denote.bind (o.apply x)) fine (r.reading < levels) (applyCut setting recur neutral x
      { operator := o, right := r.flatText, fragment }) :=
  ((agrees_operand hr neutral hwf hs).mono hfine Iff.rfl).finish fun _ hy =>
    agrees_finishCut ho fun hf => isSome_of_bind (f := o.apply x) (h hf) hy

section Tier

variable (hr : Reads levels recur) {tier : Tier} {k : Nat} (htier : tier.At k)
  {next : Text → Eval σ Float}
  (hnext : ∀ t : Tree, t.WellFormed → t.Settled → k < t.level →
    Agrees t.denote t.AllFinite (t.reading ≤ levels) (next t.flatText))
include hr htier hnext

omit hr in
/-- What binds tighter goes to the next tier as it is. -/
theorem agrees_splitTier_of_lt {t : Tree} (hwf : t.WellFormed) (hs : t.Settled)
    (hlevel : k < t.level) :
    Agrees t.denote t.AllFinite (t.reading ≤ levels)
      (splitTier setting recur tier next t.flatText) := by
  have hpos : 0 < k := by cases htier <;> decide
  have hunsplit : Unsplit tier.symbols tier.signed 0 none t.flatText :=
    Tree.unsplit_flatText htier hwf hs (Tree.lt_level_unsigned hlevel) (.inl (by omega))
  rw [splitTier_of_unsplit (hunsplit 0)]
  exact (hnext t hwf hs hlevel).guarded

/-- **A tier** agrees with the meaning of the trees of its level, if the next one does with what
binds tighter. -/
theorem agrees_splitTier {t : Tree} (hwf : t.WellFormed) (hs : t.Settled) (hlevel : k ≤ t.level) :
    Agrees t.denote t.AllFinite (t.reading ≤ levels)
      (splitTier setting recur tier next t.flatText) := by
  have hatom : ∀ t : Tree, t.WellFormed → t.Settled → 5 ≤ t.level →
      Agrees t.denote t.AllFinite (t.reading ≤ levels)
        (splitTier setting recur tier next t.flatText) := by
    intro t hwf hs hfive
    have hk : k ≤ 4 := by cases htier <;> decide
    exact agrees_splitTier_of_lt htier hnext hwf hs (by omega)
  induction t with
  | numeral n => exact hatom _ hwf hs (Nat.le_succ 5)
  | constant factor c => exact hatom _ hwf hs (Nat.le_succ 5)
  | group t _ => exact hatom _ hwf hs (Nat.le_succ 5)
  | call multiplier f arguments _ => exact hatom _ hwf hs (Nat.le_succ 5)
  | factorial t _ => exact hatom _ hwf hs (le_refl 5)
  | binary o l r ihl _ =>
    rcases Nat.lt_or_eq_of_le hlevel with hlt | heq
    · exact agrees_splitTier_of_lt htier hnext hwf hs hlt
    obtain rfl : k = o.level := heq
    have hsplit := Tree.splitPoints_binary htier hwf hs
    obtain ⟨ho, ⟨hl, hleft⟩, -, hright⟩ := hwf
    -- the left operand is an operand, or it is read by the same tier again
    have hvalue : Agrees l.denote l.AllFinite
        ((if l.level = o.level then l.reading else l.reading + 1) ≤ levels)
        (leftPart setting recur tier next l.flatText) := by
      rcases Nat.lt_or_eq_of_le hl with hlt | hsame
      · have hunsplit : splitPoints tier.symbols tier.signed l.flatText = [] :=
          Tree.unsplit_flatText htier hleft hs.1 (Tree.lt_level_unsigned hlt)
            (.inl (by have := o.level_pos; omega)) 0
        rw [if_neg hlt.ne', leftPart, if_pos hunsplit]
        exact (agrees_operand hr tier.neutral hleft hs.1).guarded
      · have hsplits := Tree.splitPoints_flatText_ne_nil (hsame ▸ htier) hleft hs.1
        rw [if_pos hsame.symm, leftPart, if_neg hsplits]
        exact ihl hleft hs.1 hl
    rw [Tree.flatText, splitTier_snoc hr.stops hsplit, Operator.ofSymbol_symbol]
    refine .mono ((hvalue.mono Tree.AllFinite.of_left Iff.rfl).bind_guarded fun x hx => ?_) id
      max_le_iff.symm
    exact agrees_applyCut hr tier.neutral x ho hright hs.2 _ Tree.AllFinite.of_right
      fun h => isSome_of_bind (f := fun x => r.denote.bind (o.apply x)) h.isSome hx
  | signed negative t _ =>
    obtain rfl : k = 1 := by
      have hpos : 0 < k := by cases htier <;> decide
      have hone : k ≤ 1 := hlevel
      omega
    cases htier
    have hsplit := Tree.splitPoints_signed hwf hs
    have ho : Tree.signOperator negative ≠ .dice := by cases negative <;> decide
    -- a sign is an operator with nothing on its left, where the neutral number stands in
    have hzero : Agrees (some 0.0) (Tree.signed negative t).AllFinite True
        (leftPart setting recur .additive next []) := by
      have hnil : splitPoints Tier.additive.symbols Tier.additive.signed [] = [] := rfl
      rw [leftPart, if_pos hnil]
      exact (Agrees.answer 0.0).guarded
    show Agrees _ _ _ (splitTier setting recur .additive next
      ([] ++ (Tree.signOperator negative).symbol :: t.flatText))
    rw [splitTier_snoc hr.stops hsplit, Operator.ofSymbol_symbol]
    have happly := fun fragment => @agrees_applyCut σ setting recur levels hr _ 0.0 0.0 _ ho t hwf.2 hs
      fragment Tree.AllFinite.of_signed fun h : (Tree.signed negative t).AllFinite => h.isSome
    refine .mono (@Agrees.bind_guarded σ Float _ _ _
      (fun x => t.denote.bind ((Tree.signOperator negative).apply x)) _ _ _ hzero fun x hx => ?_) id
      (iff_of_eq (true_and _))
    cases hx
    exact happly _

end Tier

/-! ## Whole texts -/

/-- **The operators** agree with the meaning of every tree. -/
theorem agrees_operators (hr : Reads levels recur) {t : Tree} (hwf : t.WellFormed) (hs : t.Settled) :
    Agrees t.denote t.AllFinite (t.reading ≤ levels) (operators setting recur t.flatText) := by
  refine agrees_splitTier hr .additive (fun t hwf hs hlevel => ?_) hwf hs t.level_pos
  refine agrees_splitTier hr .multiplicative (fun t hwf hs hlevel => ?_) hwf hs hlevel
  refine agrees_splitTier hr .powers (fun t hwf hs hlevel => ?_) hwf hs hlevel
  refine agrees_splitTier hr .diceAndModulo (fun t hwf hs hlevel => ?_) hwf hs hlevel
  exact agrees_factorialTier hr hwf hs hlevel

theorem agrees_step (hr : Reads levels recur) {entry : Entry} {t : Tree} (hwf : t.WellFormed)
    (hs : t.Settled) (hentry : entry.Admits t) :
    Agrees t.denote t.AllFinite (t.reading ≤ levels) (step setting recur entry t.flatText) := by
  cases entry with
  | whole =>
    obtain ⟨hopen, hclose, hsquare⟩ := (Tree.sealed_true hwf hs).count_eq
    rw [step, groupsThenOperators, resolveGroups_of_no_group hopen hclose hsquare, pure_bind]
    exact (agrees_operators hr hwf hs).guarded
  | operand => exact agrees_operators hr hwf hs
  | factorial => exact agrees_factorialTier hr hwf hs hentry
  | application => exact agrees_application hr hwf hs hentry

/-- **Nested evaluations** agree with the meaning of every tree without groups, however many
levels they have. -/
theorem reads_descend (setting : Setting σ) (levels : Nat) :
    Reads levels (descend setting levels) := by
  induction levels with
  | zero =>
    refine ⟨fun entry t _ _ _ => ?_, stops_descend setting 0⟩
    rw [descend]
    exact (Agrees.refuse _ fun _ => Nat.not_lt_zero _).guarded
  | succ levels ih =>
    refine ⟨fun entry t hwf hs hentry => ?_, stops_descend setting (levels + 1)⟩
    rw [descend]
    exact (agrees_step ih hwf hs hentry).nested.guarded.mono id Nat.lt_succ_iff.symm

end Reckoner

import Reckoner.Proofs.Exhaustion
import Reckoner.Proofs.Syntax.Fold

/-!
# Evaluation means what trees denote

The evaluator has neither tokens nor trees, yet it reads the text of every syntax tree as that
tree: without a problem its answer is the value that the tree denotes, and it ends with a problem
if a node of the tree has no value (`evaluateExpression_print`).
-/

namespace Reckoner

open Eval

variable {σ : Type} {setting : Setting σ}

/-! ## What is written -/

namespace Tree

/-- The characters that trees are written in. -/
def IsWritten (c : Char) : Prop :=
  IsNumberChar c ∨ c ∈ nameText ∨ c ∈ ['(', ')', ',', '!', '*', '/', '^', '%', 'd']

theorem isWritten_symbol (o : Operator) : IsWritten o.symbol := by
  cases o with
  | plus => exact .inl (.inr (by decide))
  | minus => exact .inl (.inr (by decide))
  | _ => exact .inr (.inr (by decide))

/-- A property of texts that trees are written by: it is kept when texts follow one another or
are put in round brackets, and the parts of trees have it. -/
structure Compositional (P : Text → Prop) : Prop where
  nil : P []
  append : ∀ {s u}, P s → P u → P (s ++ u)
  grouped : ∀ {s}, P s → P ('(' :: (s ++ [')']))
  number : ∀ {s}, (∀ c ∈ s, IsNumberChar c) → P s
  name : ∀ {s}, (∀ c ∈ s, c ∈ nameText) → P s
  mark : ∀ {c}, c ∈ [',', '!'] → P [c]
  symbol : ∀ o : Operator, P [o.symbol]

theorem Compositional.print {P : Text → Prop} (hP : Compositional P) {t : Tree}
    (hwf : t.WellFormed) : P t.print := by
  induction t with
  | numeral n => exact hP.number (isNumberChar_of_mem_text hwf)
  | constant factor k =>
    exact hP.append (hP.number (isNumberChar_of_mem_optionalText hwf.1))
      (hP.name (Constant.mem_nameText hwf.2))
  | group t ih => exact hP.grouped (ih hwf)
  | call multiplier f arguments ih =>
    obtain ⟨hmultiplier, hf, -, hall⟩ := hwf
    have hcomma : P [','] := hP.mark (by decide)
    have hjoin : P (Text.join [','] (arguments.map Tree.print)) := by
      refine join_of_append hP.nil (fun hs hu => hP.append hs (hP.append hcomma hu)) fun p hp => ?_
      obtain ⟨a, ha, rfl⟩ := List.mem_map.mp hp
      exact ih a ha (eachWellFormed_iff.mp hall a ha)
    rw [Tree.print, printAll_eq]
    exact hP.append (hP.append (hP.number (isNumberChar_of_mem_optionalText hmultiplier))
      (hP.name (Callee.mem_nameText hf))) (hP.grouped hjoin)
  | factorial t ih => exact hP.append (ih hwf.2) (hP.mark (by decide))
  | binary o l r ihl ihr =>
    exact hP.append (ihl hwf.2.1.2) (hP.append (hP.symbol o) (ihr hwf.2.2.2))
  | signed negative t ih => exact hP.append (hP.symbol _) (ih hwf.2)

theorem compositional_isWritten : Compositional fun s => ∀ c ∈ s, IsWritten c where
  nil := List.forall_mem_nil _
  append hs hu := List.forall_mem_append.mpr ⟨hs, hu⟩
  grouped hs := by
    have hopen : IsWritten '(' := .inr (.inr (by decide))
    have hclose : IsWritten ')' := .inr (.inr (by decide))
    exact List.forall_mem_cons.mpr ⟨hopen, List.forall_mem_append.mpr
      ⟨hs, List.forall_mem_singleton.mpr hclose⟩⟩
  number hs c hc := .inl (hs c hc)
  name hs c hc := .inr (.inl (hs c hc))
  mark {c} hc := by
    have hsubset : [',', '!'] ⊆ ['(', ')', ',', '!', '*', '/', '^', '%', 'd'] := by decide
    exact List.forall_mem_singleton.mpr (.inr (.inr (hsubset hc)))
  symbol o := List.forall_mem_singleton.mpr (isWritten_symbol o)

theorem isWritten_of_mem_print {t : Tree} (hwf : t.WellFormed) : ∀ c ∈ t.print, IsWritten c :=
  compositional_isWritten.print hwf

/-- As many groups are closed as are opened. -/
def Even (s : Text) : Prop := s.count '(' = s.count ')'

theorem Even.append {s u : Text} (hs : Even s) (hu : Even u) : Even (s ++ u) := by
  rw [Even, List.count_append, List.count_append, hs, hu]

theorem even_of_forall {s : Text} (h : ∀ c ∈ s, isBracket c = false) : Even s := by
  have hnot : ∀ b, isBracket b = true → b ∉ s := by
    intro b hb hmem
    rw [h b hmem] at hb
    cases hb
  rw [Even, List.count_eq_zero_of_not_mem (hnot '(' rfl),
    List.count_eq_zero_of_not_mem (hnot ')' rfl)]

theorem compositional_even : Compositional Even where
  nil := rfl
  append := .append
  grouped h := by
    unfold Even at h ⊢
    simp [h]
  number hs := even_of_forall fun c hc => isBracket_of_isNumberChar (hs c hc)
  name hs := even_of_forall fun c hc => isBracket_of_mem_nameText c (hs c hc)
  mark {c} hc := by
    have hall : ∀ c ∈ [',', '!'], isBracket c = false := by decide
    exact even_of_forall (List.forall_mem_singleton.mpr (hall c hc))
  symbol o := by cases o <;> rfl

theorem even_print {t : Tree} (hwf : t.WellFormed) : Even t.print := compositional_even.print hwf

theorem isBlank_of_isWritten {c : Char} (h : IsWritten c) : isBlank c = false := by
  rcases h with (hdigit | hmark) | hname | hmark
  · exact isBlank_of_isDecimalDigit hdigit
  · revert c
    decide
  · revert c
    decide
  · revert c
    decide

theorem ne_square_of_isWritten {c : Char} (h : IsWritten c) : c ≠ '[' ∧ c ≠ ']' := by
  rcases h with hnumber | hname | hmark
  · exact ⟨ne_of_isNumberChar hnumber (by decide) (by decide),
      ne_of_isNumberChar hnumber (by decide) (by decide)⟩
  · revert c
    decide
  · revert c
    decide

theorem count_square_print {t : Tree} (hwf : t.WellFormed) :
    t.print.count '[' = t.print.count ']' := by
  have hnot := fun c hc => ne_square_of_isWritten (isWritten_of_mem_print hwf c hc)
  rw [List.count_eq_zero_of_not_mem fun h => (hnot '[' h).1 rfl,
    List.count_eq_zero_of_not_mem fun h => (hnot ']' h).2 rfl]

theorem withoutBlanks_print {t : Tree} (hwf : t.WellFormed) : t.print.withoutBlanks = t.print := by
  refine List.filter_eq_self.mpr fun c hc => ?_
  rw [isBlank_of_isWritten (isWritten_of_mem_print hwf c hc)]
  rfl

theorem print_ne_nil {t : Tree} (hwf : t.WellFormed) : t.print ≠ [] := by
  cases t with
  | numeral n =>
    intro h
    have hn : n.text.isEmpty = false := optionalText_some_isEmpty hwf
    rw [show n.text = [] from h] at hn
    cases hn
  | constant factor c =>
    obtain ⟨d, rest, hname, -⟩ := startsWord_constant hwf.2
    simp [print, hname]
  | factorial t => simp [print]
  | _ => simp [print]

end Tree

/-! ## Agreement -/

/-- The evaluation of a printed tree agrees with its meaning. -/
theorem agrees_print (setting : Setting σ) (levels : Nat) {t : Tree} (hwf : t.WellFormed) :
    Agrees t.denote t.AllFinite (t.levels ≤ levels) (descend setting levels .whole t.print) := by
  cases levels with
  | zero =>
    rw [descend]
    exact (Agrees.refuse _ fun _ => Nat.not_succ_le_zero _).guarded
  | succ levels =>
    have hr := reads_descend setting levels
    rw [descend]
    refine Agrees.guarded (Agrees.nested (Agrees.mono ?_ id Nat.succ_le_succ_iff.symm))
    rw [step, groupsThenOperators, resolveGroups_of_even (Tree.even_print hwf),
      if_pos (Tree.count_square_print hwf)]
    intro s hs
    have hcontext : Context [] [] := ⟨List.not_mem_nil, rfl, rfl⟩
    have hfold := foldable hr hwf hcontext 0 hs
    rw [List.nil_append, List.append_nil, List.nil_append, List.append_nil] at hfold
    -- what is left of the text is read by the tiers, unless a group was a problem already
    cases hfold with
    | done u hrun hunrolled hclear henough hsettled =>
      obtain ⟨x, v, hvalue, hunrolled', hmeant, hwanted⟩ :=
        (agrees_operators hr hwf hsettled : Agrees _ _ _ (operators setting _ _)) hclear
      refine ⟨x, v, ?_, hunrolled.trans hunrolled', hmeant, fun hfine => ?_⟩
      · rw [Nat.add_zero] at hrun
        rw [bind_of_ok hrun, unlessFailed_of_not_failed hclear, hvalue]
      · rw [hwanted hfine, max_le_iff, iff_and_self]
        exact fun _ => henough hfine
    | stopped folded u hrun hunrolled hfailed hlacking =>
      have hnot : ¬u.failed = false := by simp [hfailed]
      refine ⟨1.0, u, ?_, hunrolled, fun hclear => absurd hclear hnot, fun hfine => ?_⟩
      · rw [Nat.add_zero] at hrun
        rw [bind_of_ok hrun, unlessFailed_of_failed hfailed]
      · exact iff_of_false hnot fun h => hlacking hfine (le_trans (le_max_left _ _) h)

section Evaluated

variable (setting : Setting σ) (dice : σ) {t : Tree} (hwf : t.WellFormed)
  (hlength : (t.print.length : Int) ≤ setting.limits.maxLength)
include hwf hlength

/-- The evaluation of a printed tree on an ample stack. -/
theorem exists_evaluateExpression_print :
    ∃ e, evaluateExpression setting dice t.print = .ok (e, dice) ∧ e.ledger.rolls = [] ∧
      (e.failed = false → t.denote = some e.value) ∧
      (t.AllFinite → (e.failed = false ↔ (t.levels : Int) ≤ setting.limits.maxDepth)) := by
  rw [t.natCast_levels_le_iff]
  have hbare := Tree.withoutBlanks_print hwf
  have hne : t.print.withoutBlanks ≠ [] := by
    rw [hbare]
    exact Tree.print_ne_nil hwf
  have hclear : ({ dice } : Progress σ).failed = false := rfl
  obtain ⟨x, u, hrun, hunrolled, hmeant, hwanted⟩ :=
    agrees_print setting setting.limits.maxDepth.toNat hwf hclear
  have hrolls : u.ledger.rolls = [] := hunrolled.rolls
  rw [evaluateExpression_of_short hne (by rwa [hbare]), hbare, topmost, hrun]
  dsimp only
  rw [hunrolled.dice]
  by_cases hjudged : (!u.failed && !x.isFinite) = true
  · -- a value that is not finite is none that a tree of finite nodes has
    rw [if_pos hjudged]
    rw [Bool.and_eq_true, Bool.not_eq_true', Bool.not_eq_true'] at hjudged
    have hfailed := u.failed_add_problem .resultTooLarge
    refine ⟨_, rfl, ?_, fun hclear => ?_, fun hfine => ?_⟩
    · exact (Unrolled.add u (e := .problem .resultTooLarge) rfl).rolls.trans hrolls
    · exact absurd (hfailed.symm.trans hclear) (by decide)
    · obtain ⟨y, hy, hfinite⟩ := hfine.hasFinite
      rw [hmeant hjudged.1] at hy
      cases hy
      rw [hjudged.2] at hfinite
      cases hfinite
  · rw [if_neg hjudged]
    exact ⟨_, rfl, hrolls, hmeant, hwanted⟩

/-- A tree takes the levels that it needs. -/
theorem levelsTaken_print (hfine : t.AllFinite)
    (hlevels : (t.levels : Int) ≤ setting.limits.maxDepth) :
    levelsTaken setting dice t.print = t.levels := by
  apply le_antisymm
  · obtain ⟨e, he, -, -, hwanted⟩ :=
      exists_evaluateExpression_print (setting.withDepth t.levels) dice hwf hlength
    have hclear : e.failed = false := (hwanted hfine).mpr (le_refl _)
    exact (evaluateExpression_of_granted (granted_of_success he hclear) hlevels).2
  · obtain ⟨e, he, -, -, hwanted⟩ := exists_evaluateExpression_print setting dice hwf hlength
    have hclear := (hwanted hfine).mpr hlevels
    -- with no more levels than it takes it still succeeds
    obtain ⟨e', he', -, -, hwanted'⟩ := exists_evaluateExpression_print
      (setting.withDepth (levelsTaken setting dice t.print)) dice hwf hlength
    have hsame := (evaluateExpression_withDepth (granted_of_success he hclear)
      (Int.toNat_natCast _).ge).1.trans he
    rw [he'] at hsame
    cases hsame
    exact Int.ofNat_le.mp ((hwanted' hfine).mp hclear)

end Evaluated

/-- **Agreement with the meaning of trees.** On every stack the text of a well-formed tree is
evaluated without a fault, and no die is rolled. An evaluation without a problem comes to the value
that the tree denotes; if a node of the tree denotes none, there is a problem; and if all of them
denote finite numbers, there is none exactly if the limit on the depth allows the levels that the
tree needs and the stack has room for them. -/
theorem evaluateExpression_print (stack : Stack) (setting : Setting σ) (dice : σ) {t : Tree}
    (hwf : t.WellFormed) (hlength : (t.print.length : Int) ≤ setting.limits.maxLength) :
    ∃ e, evaluateExpression setting dice t.print stack = .ok (e, dice) ∧
      (e.ledger.problems = [] → t.denote = some e.value) ∧
      ((∃ u, Tree.Node u t ∧ u.denote = none) → e.failed = true) ∧
      ((∀ u, Tree.Node u t → u.HasFinite) →
        (e.ledger.problems = [] ↔
          (t.levels : Int) ≤ setting.limits.maxDepth ∧ stack.Nests t.levels)) := by
  obtain ⟨whole, hwhole, hrolls, hmeant, hwanted⟩ :=
    exists_evaluateExpression_print setting dice hwf hlength
  obtain ⟨e, he, -⟩ := evaluateExpression_of_no_rolls hwhole hrolls
  have hflag := (flagged_evaluateExpression setting he).failed_eq_false_iff
  -- without a problem the evaluation is the one on the ample stack
  have hspared : e.failed = false →
      e = whole ∧ stack.Nests (levelsTaken setting dice t.print) := by
    intro hclear
    obtain ⟨⟨hample, -⟩, hnests⟩ := success_iff_nests.mp ⟨he, hclear⟩
    rw [hwhole] at hample
    cases hample
    exact ⟨rfl, hnests⟩
  have hdenote : e.failed = false → t.denote = some e.value := by
    intro hclear
    obtain ⟨rfl, -⟩ := hspared hclear
    exact hmeant hclear
  refine ⟨e, he, hdenote ∘ hflag.mpr, ?_, fun hfine => ?_⟩
  · rintro ⟨u, hu, hnone⟩
    by_contra hsuccess
    have hsome := hdenote (Bool.not_eq_true _ ▸ hsuccess)
    rw [hu.denote_eq_none hnone] at hsome
    cases hsome
  · rw [← hflag]
    constructor
    · intro hclear
      obtain ⟨rfl, hnests⟩ := hspared hclear
      have hlevels := (hwanted hfine).mp hclear
      rw [levelsTaken_print setting dice hwf hlength hfine hlevels] at hnests
      exact ⟨hlevels, hnests⟩
    · rintro ⟨hlevels, hnests⟩
      rw [← levelsTaken_print setting dice hwf hlength hfine hlevels] at hnests
      have hclear := (hwanted hfine).mpr hlevels
      obtain ⟨hsame, -⟩ := success_iff_nests.mpr ⟨⟨hwhole, hclear⟩, hnests⟩
      rw [he] at hsame
      cases hsame
      exact hclear

/-- The tree of `-(1+2)!`. -/
def negatedFactorial : Tree :=
  .signed true (.factorial (.group (.binary .plus (.numeral ⟨['1'], [], []⟩)
    (.numeral ⟨['2'], [], []⟩))))

theorem wellFormed_negatedFactorial : negatedFactorial.WellFormed := by
  have hone : (Numeral.mk ['1'] [] []).Regular := Numeral.regular_digit (by decide)
  have htwo : (Numeral.mk ['2'] [] []).Regular := Numeral.regular_digit (by decide)
  have hsum : (Tree.binary .plus (.numeral ⟨['1'], [], []⟩) (.numeral ⟨['2'], [], []⟩)).WellFormed :=
    ⟨by decide, ⟨by decide, hone⟩, by decide, htwo⟩
  exact ⟨by decide, by decide, hsum⟩

theorem allFinite_negatedFactorial : negatedFactorial.AllFinite := by
  intro u hu
  rw [negatedFactorial] at hu
  cases hu with
  | self => exact ⟨-6.0, by decide +kernel, by decide +kernel⟩
  | signed _ hu =>
    cases hu with
    | self => exact ⟨6.0, by decide +kernel, by decide +kernel⟩
    | factorial hu =>
      cases hu with
      | self => exact ⟨3.0, by decide +kernel, by decide +kernel⟩
      | group hu =>
        cases hu with
        | self => exact ⟨3.0, by decide +kernel, by decide +kernel⟩
        | left _ _ hu =>
          cases hu with
          | self => exact ⟨1.0, by decide +kernel, by decide +kernel⟩
        | right _ _ hu =>
          cases hu with
          | self => exact ⟨2.0, by decide +kernel, by decide +kernel⟩

/-- It needs three levels: the first folds the group, the second reads what is in it, and the third
is for an operand there. -/
theorem evaluateExpression_negatedFactorial :
    ∃ e, evaluateExpression usual .low ['-', '(', '1', '+', '2', ')', '!'] (.ofLevels 3) =
        .ok (e, .low) ∧
      e.ledger.problems = [] ∧ negatedFactorial.denote = some e.value ∧ e.value = -6.0 := by
  have hlevels : negatedFactorial.levels = 3 := by decide +kernel
  have hnests : (Stack.ofLevels 3).Nests negatedFactorial.levels := by
    rw [hlevels]
    exact (Stack.holds_ofLevels 3).nests
  obtain ⟨e, he, hdenote, -, hfine⟩ :=
    evaluateExpression_print (.ofLevels 3) usual .low wellFormed_negatedFactorial (by decide +kernel)
  have hproblems : e.ledger.problems = [] :=
    (hfine allFinite_negatedFactorial).mpr ⟨by decide +kernel, hnests⟩
  refine ⟨e, he, hproblems, hdenote hproblems, Option.some.inj ((hdenote hproblems).symm.trans ?_)⟩
  decide +kernel

/-- Neither the limit on the depth nor that on the length is exceeded, and all nodes are finite;
but where the stack has room for two levels only, the expression is too complex. -/
theorem evaluateExpression_print_edge :
    negatedFactorial.WellFormed ∧ (∀ u, Tree.Node u negatedFactorial → u.HasFinite) ∧
      (negatedFactorial.levels : Int) ≤ usual.limits.maxDepth ∧
      (negatedFactorial.print.length : Int) ≤ usual.limits.maxLength ∧
      negatedFactorial.denote = some (-6.0) ∧
      ∃ e, evaluateExpression usual .low negatedFactorial.print (.ofLevels 2) = .ok (e, .low) ∧
        e.failed = true ∧ e.ledger.problems = [.tooComplex] :=
  ⟨wellFormed_negatedFactorial, allFinite_negatedFactorial, by decide +kernel, by decide +kernel,
    by decide +kernel,
    { expression := negatedFactorial.print
      ledger := { events := [.problem .tooComplex], failed := true } },
    by decide +kernel, rfl, rfl⟩

end Reckoner

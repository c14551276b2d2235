import Reckoner.Proofs.Limits
import Reckoner.Proofs.Outcome
import Reckoner.Proofs.Split

/-!
# The fold and the recursion it stands for

A tier could as well be evaluated from its end: split at the last operator, evaluate what is
before it by the same rule, then the operand after it. That is `byLastSplit`, which goes one
call deeper for every operator. The fold of `splitTier` does the same things in the same order
(`splitTier_byLastSplit`); only how deep the two nest is different.
-/

namespace Reckoner

open Eval

variable {σ : Type}

namespace Eval

/-! ## The recursion -/

/-- Runs a nested evaluation on the levels that are left, if there are any. -/
def reenter (setting : Setting σ) (run : Nat → Eval σ Float) : Nat → Eval σ Float
  | 0 => unlessFailed (refuse (.tooDeep setting.limits.maxDepth))
  | levels + 1 => unlessFailed (nested (run levels))

theorem descend_eq_reenter (setting : Setting σ) (levels : Nat) (entry : Entry) (t : Text) :
    descend setting levels entry t =
      reenter setting (fun levels => step setting (descend setting levels) entry t) levels := by
  cases levels <;> rfl

/-- Goes on with a part of a text: in the `guarded` form this is a nested evaluation, which
takes a level. -/
def goOn (setting : Setting σ) (guarded : Bool) (run : Nat → Eval σ Float) (levels : Nat) :
    Eval σ Float :=
  if guarded then reenter setting run levels else run levels

/-- Evaluates a text at a tier by its last split point: what is before it by the same rule,
then what is after it as an operand; then the operator is applied to both and noted with the
whole text. -/
def byLastSplit (setting : Setting σ) (guarded : Bool) (tier : Tier)
    (next : Nat → Text → Eval σ Float) (levels : Nat) (t : Text) : Eval σ Float :=
  unlessFailed <|
    match h : (splitPoints tier.symbols tier.signed t).getLast? with
    | none => next levels t
    | some point => do
      have : point < t.length := lt_length_of_mem_splitPoints (List.mem_of_getLast? h)
      let left ← (if (t.take point).isEmpty then return tier.neutral
        else goOn setting guarded
          (fun levels => byLastSplit setting guarded tier next levels (t.take point)) levels)
      applyCut setting (descend setting levels) tier.neutral left
        { operator := .ofSymbol (t.getD point ' '), right := t.drop (point + 1), fragment := t }
termination_by t.length

variable {setting : Setting σ} {guarded : Bool} {tier : Tier} {next : Nat → Text → Eval σ Float}
  {levels : Nat}

theorem byLastSplit_of_unsplit {t : Text} (h : splitPoints tier.symbols tier.signed t = []) :
    byLastSplit setting guarded tier next levels t = unlessFailed (next levels t) := by
  rw [byLastSplit]
  split
  · rfl
  · next point hpoint =>
    rw [h] at hpoint
    cases hpoint

theorem byLastSplit_snoc {l r : Text} {c : Char}
    (h : splitPoints tier.symbols tier.signed (l ++ c :: r) =
      splitPoints tier.symbols tier.signed l ++ [l.length]) :
    byLastSplit setting guarded tier next levels (l ++ c :: r) =
      unlessFailed ((if l.isEmpty then return tier.neutral
        else goOn setting guarded
          (fun levels => byLastSplit setting guarded tier next levels l) levels) >>= fun x =>
        applyCut setting (descend setting levels) tier.neutral x
          { operator := .ofSymbol c, right := r, fragment := l ++ c :: r }) := by
  rw [byLastSplit]
  split
  · next hnone =>
    rw [h, List.getLast?_concat] at hnone
    cases hnone
  · next point hpoint =>
    rw [h, List.getLast?_concat] at hpoint
    cases hpoint
    have hchar : (l ++ c :: r).getD l.length ' ' = c := by simp
    have hright : (l ++ c :: r).drop (l.length + 1) = r := by simp
    rw [List.take_left, hchar, hright]

/-! ## First operands -/

/-- The tiers of a list with the recursion in the place of every fold, then the factorial. -/
def tiersByLastSplit (setting : Setting σ) (guarded : Bool) :
    List Tier → Nat → Text → Eval σ Float
  | [], levels => factorialTier (descend setting levels)
  | tier :: tighter, levels =>
    byLastSplit setting guarded tier (tiersByLastSplit setting guarded tighter) levels

/-- The text before the first split point, or all of it. -/
def firstOperand (tier : Tier) (t : Text) : Text :=
  t.take ((splitPoints tier.symbols tier.signed t).headD t.length)

theorem UnsplitBy.firstOperand {tiers : List Tier} {t : Text} (h : UnsplitBy tiers t)
    (tier : Tier) : UnsplitBy tiers (firstOperand tier t) := by
  rw [← List.take_append_drop ((splitPoints tier.symbols tier.signed t).headD t.length) t] at h
  exact h.of_append

variable {recur : Recur σ} {looser tighter : List Tier}

theorem firstOperand_of_unsplit {t : Text} (h : splitPoints tier.symbols tier.signed t = []) :
    firstOperand tier t = t := by
  rw [firstOperand, h, List.headD_nil, List.take_length]

/-- A further split point at the end does not change the first operand. -/
theorem firstOperand_snoc {l r : Text} {c : Char}
    (h : splitPoints tier.symbols tier.signed (l ++ c :: r) =
      splitPoints tier.symbols tier.signed l ++ [l.length]) :
    firstOperand tier (l ++ c :: r) = firstOperand tier l := by
  rw [firstOperand, firstOperand, h]
  cases hl : splitPoints tier.symbols tier.signed l with
  | nil => simp
  | cons first later =>
    have hfirst : first ≤ l.length :=
      (lt_length_of_mem_splitPoints (hl ▸ List.mem_cons_self)).le
    exact List.take_append_of_le_length hfirst

/-- The fold at its last split point, in the shape of the recursion. -/
theorem splitTier_snoc_guarded (hr : ∀ entry t, Stops IsOne (recur entry t))
    {next : Text → Eval σ Float} {l r : Text} {c : Char}
    (h : splitPoints tier.symbols tier.signed (l ++ c :: r) =
      splitPoints tier.symbols tier.signed l ++ [l.length]) :
    splitTier setting recur tier next (l ++ c :: r) =
      unlessFailed ((if l.isEmpty then return tier.neutral
        else if splitPoints tier.symbols tier.signed l = [] then recur .operand l
        else splitTier setting recur tier next l) >>= fun x =>
          applyCut setting recur tier.neutral x
            { operator := .ofSymbol c, right := r, fragment := l ++ c :: r }) := by
  have hcut : ∀ x cut, unlessFailed (applyCut setting recur tier.neutral x cut) =
      applyCut setting recur tier.neutral x cut := unlessFailed_applyCut hr tier.neutral
  rw [splitTier_snoc hr h, leftPart]
  by_cases hl : splitPoints tier.symbols tier.signed l = []
  · rw [if_pos hl, if_pos hl, unlessFailed_bind, operand]
    simp only [hcut]
  · have hempty : l.isEmpty = false := by
      rw [List.isEmpty_eq_false_iff]
      rintro rfl
      exact hl rfl
    have hguard : splitTier setting recur tier next l =
        unlessFailed (splitTier setting recur tier next l) := (unlessFailed_unlessFailed _).symm
    rw [if_neg hl, if_neg hl, hempty, if_neg Bool.false_ne_true, hguard, unlessFailed_bind,
      ← hguard]
    simp only [hcut]

end Eval

/-! ## Both go on alike -/

/-- With more levels the tiers of a list go on as with fewer, unless those run out. -/
theorem follows_tiersFrom {setting setting' : Setting σ} {lost : Problem → Prop} {exact : Prop}
    (hv : Varied setting setting' lost exact) (hdeep : ∀ most, lost (.tooDeep most))
    (levels extra : Nat) (tiers : List Tier) (t : Text) :
    Follows setting lost exact (tiersFrom setting (descend setting levels) tiers t)
      (tiersFrom setting' (descend setting' (levels + extra)) tiers t) := by
  have h := @Follows.congruence σ .ample _ _ _ _ hv
  induction tiers generalizing t with
  | nil => exact h.factorialTier (follows_descend hv hdeep levels extra) t
  | cons tier tiers ih => exact h.splitTier (follows_descend hv hdeep levels extra) tier ih t

section Follow

variable {setting : Setting σ} {looser tighter : List Tier} {tier : Tier}
  {next : Nat → Text → Eval σ Float}

/-- The problem of a run whose levels do not suffice. -/
def IsTooDeep (p : Problem) : Prop := ∃ most, p = .tooDeep most

theorem varied_refl (setting : Setting σ) : Varied setting setting IsTooDeep True where
  source := rfl
  dice := .inl rfl
  budgets _ := ⟨rfl, rfl⟩

/-- The second evaluation goes on exactly as the first one does, if the levels of the first
one suffice. -/
abbrev Spared (setting : Setting σ) (m m' : Eval σ Float) : Prop :=
  Follows setting IsTooDeep True m m'

theorem spared_congruence (setting : Setting σ) :
    Congruence setting setting fun _ (m m' : Eval σ _) => Follows setting IsTooDeep True m m' :=
  Follows.congruence (varied_refl setting)

theorem spared_descend (levels extra : Nat) (entry : Entry) (t : Text) :
    Spared setting (descend setting levels entry t) (descend setting (levels + extra) entry t) :=
  follows_descend (varied_refl setting) (fun most => ⟨most, rfl⟩) levels extra entry t

theorem spared_applyCut (levels extra : Nat) (neutral left : Float) (cut : Cut) :
    Spared setting (applyCut setting (descend setting levels) neutral left cut)
      (applyCut setting (descend setting (levels + extra)) neutral left cut) := by
  have h := spared_congruence setting
  refine h.sequence (h.operand (spared_descend levels extra) _ _) fun right => h.unlessFailed ?_
  refine h.sequence (h.combine _ _ _ _) fun result => h.unlessFailed ?_
  exact h.sequence (h.step _ trivial) fun _ => h.answer _

theorem spared_reenter {run run' : Nat → Eval σ Float} {extra : Nat}
    (h : ∀ levels, Spared setting (run levels) (run' (levels + extra))) (levels : Nat) :
    Spared setting (reenter setting run levels) (reenter setting run' (levels + extra)) := by
  cases levels with
  | zero => cases extra <;> exact .refused ⟨_, rfl⟩ _
  | succ levels =>
    rw [Nat.succ_add]
    exact (spared_congruence setting).unlessFailed (h levels).nested

variable (htiers : Tier.all = looser ++ tier :: tighter)
include htiers

/-- An operand that neither the tier nor a looser one splits is handed to the tighter ones. -/
theorem operators_of_unsplitBy {recur : Recur σ} {l : Text} (hlooser : UnsplitBy looser l)
    (hl : splitPoints tier.symbols tier.signed l = []) :
    operators setting recur l = tiersFrom setting recur tighter l := by
  rw [operators_eq_tiersFrom, htiers, tiersFrom_append hlooser, tiersFrom,
    splitTier_of_unsplit hl, unlessFailed_tiersFrom]

/-- The fold nests its first operand, and the plain recursion does not. -/
theorem spared_byLastSplit
    (hnext : ∀ levels extra t, UnsplitBy (looser ++ [tier]) t →
      Spared setting (tiersFrom setting (descend setting levels) tighter t)
        (next (levels + extra) t))
    (levels extra : Nat) {t : Text} (hfirst : UnsplitBy looser (firstOperand tier t)) :
    Spared setting
      (splitTier setting (descend setting levels) tier
        (tiersFrom setting (descend setting levels) tighter) t)
      (byLastSplit setting false tier next (levels + extra) t) := by
  have h := spared_congruence setting
  induction t using splitPoints_induction tier.symbols tier.signed with
  | unsplit t hsplit =>
    rw [firstOperand_of_unsplit hsplit] at hfirst
    rw [splitTier_of_unsplit hsplit, byLastSplit_of_unsplit hsplit]
    exact h.unlessFailed (hnext levels extra t (hfirst.snoc hsplit))
  | snoc l c r _ hlast ih =>
    rw [firstOperand_snoc hlast] at hfirst
    rw [splitTier_snoc_guarded (stops_descend setting levels) hlast, byLastSplit_snoc hlast]
    refine h.unlessFailed (h.sequence ?_ fun x => spared_applyCut levels extra _ _ _)
    rw [goOn, if_neg Bool.false_ne_true]
    split_ifs with hempty hl
    · exact h.answer _
    · rw [firstOperand_of_unsplit hl] at hfirst
      rw [byLastSplit_of_unsplit hl, descend_eq_reenter]
      -- the fold pays a level for its first operand, which the recursion has to spare
      cases levels with
      | zero => exact .refused ⟨_, rfl⟩ _
      | succ levels =>
        refine h.unlessFailed (Follows.nested_left ?_)
        show Spared setting (operators setting (descend setting levels) l) _
        rw [operators_of_unsplitBy htiers hfirst hl, Nat.add_right_comm, Nat.add_assoc]
        exact hnext levels (extra + 1) l (hfirst.snoc hl)
    · exact ih hfirst

/-- The guarded recursion nests every operand on the left, and the fold only the first. -/
theorem spared_splitTier
    (hnext : ∀ levels extra t, UnsplitBy (looser ++ [tier]) t →
      Spared setting (next levels t)
        (tiersFrom setting (descend setting (levels + extra)) tighter t))
    (levels extra : Nat) {t : Text} (hfirst : UnsplitBy looser (firstOperand tier t)) :
    Spared setting (byLastSplit setting true tier next levels t)
      (splitTier setting (descend setting (levels + extra)) tier
        (tiersFrom setting (descend setting (levels + extra)) tighter) t) := by
  have h := spared_congruence setting
  induction t using splitPoints_induction tier.symbols tier.signed generalizing levels extra with
  | unsplit t hsplit =>
    rw [firstOperand_of_unsplit hsplit] at hfirst
    rw [splitTier_of_unsplit hsplit, byLastSplit_of_unsplit hsplit]
    exact h.unlessFailed (hnext levels extra t (hfirst.snoc hsplit))
  | snoc l c r _ hlast ih =>
    rw [firstOperand_snoc hlast] at hfirst
    rw [splitTier_snoc_guarded (stops_descend setting _) hlast, byLastSplit_snoc hlast]
    refine h.unlessFailed (h.sequence ?_ fun x => spared_applyCut levels extra _ _ _)
    rw [goOn, if_pos rfl]
    split_ifs with hempty hl
    · exact h.answer _
    · rw [firstOperand_of_unsplit hl] at hfirst
      rw [descend_eq_reenter]
      refine spared_reenter (fun levels => ?_) levels
      show Spared setting _ (operators setting (descend setting (levels + extra)) l)
      rw [byLastSplit_of_unsplit hl, operators_of_unsplitBy htiers hfirst hl,
        ← unlessFailed_tiersFrom]
      exact h.unlessFailed (hnext levels extra l (hfirst.snoc hl))
    · have hguard : unlessFailed (splitTier setting (descend setting (levels + extra)) tier
          (tiersFrom setting (descend setting (levels + extra)) tighter) l) = _ :=
        unlessFailed_tiersFrom (tier :: tighter) l
      rw [tiersFrom] at hguard
      rw [← hguard]
      -- each operand on the left costs the recursion a level, which the fold has to spare
      cases levels with
      | zero => exact .refused ⟨_, rfl⟩ _
      | succ levels =>
        rw [Nat.add_right_comm, Nat.add_assoc]
        exact h.unlessFailed (Follows.nested_left (ih levels (extra + 1) hfirst))

omit htiers in
theorem spared_tiersFrom (levels extra : Nat) (tiers : List Tier) (t : Text) :
    Spared setting (tiersFrom setting (descend setting levels) tiers t)
      (tiersFrom setting (descend setting (levels + extra)) tiers t) :=
  follows_tiersFrom (varied_refl setting) (fun most => ⟨most, rfl⟩) levels extra tiers t

omit htiers in
/-- A text that no looser tier splits is evaluated alike by the tiers that are left, tier by
tier from the factorial up. -/
theorem spared_tiersByLastSplit (htiers : Tier.all = looser ++ tighter) (levels extra : Nat)
    {t : Text} (ht : UnsplitBy looser t) :
    Spared setting (tiersFrom setting (descend setting levels) tighter t)
        (tiersByLastSplit setting false tighter (levels + extra) t) ∧
      Spared setting (tiersByLastSplit setting true tighter levels t)
        (tiersFrom setting (descend setting (levels + extra)) tighter t) := by
  induction tighter generalizing looser levels extra t with
  | nil =>
    have h := (spared_congruence setting).factorialTier (spared_descend levels extra) t
    exact ⟨h, h⟩
  | cons tier tighter ih =>
    have hall : Tier.all = looser ++ [tier] ++ tighter := by
      rw [htiers, List.append_assoc, List.singleton_append]
    exact ⟨spared_byLastSplit htiers (fun levels extra t ht => (ih hall levels extra ht).1)
        levels extra (ht.firstOperand tier),
      spared_splitTier htiers (fun levels extra t ht => (ih hall levels extra ht).2)
        levels extra (ht.firstOperand tier)⟩

end Follow

/-! ## What is seen of a run -/

/-- The answer of a run or the fault that ends it, all entries, and the dice afterwards. -/
def seen (r : EStateM.Result Fault (Progress σ) Float) : Except Fault Float × Ledger × σ :=
  match r with
  | .ok x t => (.ok x, t.ledger, t.dice)
  | .error fault t => (.error fault, t.ledger, t.dice)

/-- Whether a run from a state enters that its levels do not suffice. -/
def runsOut (s : Progress σ) (r : EStateM.Result Fault (Progress σ) Float) : Bool :=
  ((lastState r).ledger.events.drop s.ledger.events.length).any fun
    | .problem (.tooDeep _) => true
    | _ => false

theorem seen_eq_of_spared {setting : Setting σ} {m m' : Eval σ Float} (h : Spared setting m m')
    {s : Progress σ} (hrun : runsOut s (m s) = false) : seen (m s) = seen (m' s) := by
  have hlost : ¬Lost IsTooDeep s (lastState (m s)) := by
    rintro ⟨-, entries, p, hentries, hp, most, rfl⟩
    rw [runsOut, hentries, List.drop_left, List.any_eq_false] at hrun
    exact hrun _ hp rfl
  have halike : Alike True s s := .of_ample rfl rfl fun _ => rfl
  have hends := ((h.ends halike).imp (·.resolve_right fun h => not_isExhausted_ample _ h.2)
    id).resolve_left hlost
  generalize m s = r, m' s = r' at hends
  cases hends with
  | ok ht => rw [seen, seen, ht.ledger_eq, ht.alike.dice]
  | error ht => rw [seen, seen, ht.ledger_eq, ht.alike.dice]

/-- **The fold is the recursion.** Take a tier with the looser ones before it and the tighter
ones after it, a text whose first operand no looser tier splits (every text that a tier is
handed), any state to start from and any number of levels that neither version exhausts. The
fold of the operands from the left and the recursion at the last split point then show the
same: the value or the fault, all problems, steps and rolls in their order, and the state of
the dice. The same holds, for every text, of all tiers together when each of them is replaced
by its recursion. -/
theorem splitTier_byLastSplit (setting : Setting σ) (guarded : Bool) (levels : Nat) (t : Text)
    (s : Progress σ) :
    (∀ looser tier tighter, Tier.all = looser ++ tier :: tighter →
      UnsplitBy looser (firstOperand tier t) →
      let next := fun levels => tiersFrom setting (descend setting levels) tighter
      let fold := splitTier setting (descend setting levels) tier (next levels) t s
      let recursion := byLastSplit setting guarded tier next levels t s
      runsOut s fold = false → runsOut s recursion = false → seen fold = seen recursion) ∧
    (let fold := operators setting (descend setting levels) t s
      let recursion := tiersByLastSplit setting guarded Tier.all levels t s
      runsOut s fold = false → runsOut s recursion = false → seen fold = seen recursion) := by
  have hnone : UnsplitBy [] t := fun _ h => nomatch h
  cases hs : s.failed with
  | true =>
    constructor
    · intro looser tier tighter _ _
      dsimp only
      rw [byLastSplit, splitTier, unlessFailed_of_failed hs, unlessFailed_of_failed hs]
      exact fun _ _ => rfl
    · dsimp only
      rw [operators, Tier.all, tiersByLastSplit, byLastSplit, splitTier,
        unlessFailed_of_failed hs, unlessFailed_of_failed hs]
      exact fun _ _ => rfl
  | false =>
    constructor
    · intro looser tier tighter htiers hfirst next fold recursion hfold hrecursion
      have hnext : ∀ levels extra t, UnsplitBy (looser ++ [tier]) t →
          Spared setting (next levels t) (next (levels + extra) t) := by
        intro levels extra t _
        exact (spared_tiersFrom levels extra tighter t)
      cases guarded with
      | false => exact seen_eq_of_spared (spared_byLastSplit htiers hnext levels 0 hfirst) hfold
      | true =>
        exact (seen_eq_of_spared (spared_splitTier htiers hnext levels 0 hfirst) hrecursion).symm
    · intro fold recursion hfold hrecursion
      obtain ⟨hplain, hguarded⟩ := @spared_tiersByLastSplit σ setting [] Tier.all rfl levels 0 t hnone
      cases guarded with
      | false => exact seen_eq_of_spared hplain hfold
      | true => exact (seen_eq_of_spared hguarded hrecursion).symm

/-- Three quotients in a row: split at the last stroke and nested for each of the others, they
come to the same entries and the same value. -/
theorem splitTier_byLastSplit_quotients :
    let next := fun levels => tiersFrom usual (descend usual levels) [.powers, .diceAndModulo]
    let t : Text := ['9', '6', '/', '2', '/', '3', '/', '4']
    let fold := splitTier usual (descend usual 5) .multiplicative (next 5) t { dice := .low }
    let recursion := byLastSplit usual true .multiplicative next 5 t { dice := .low }
    seen fold = seen recursion ∧ (seen fold).1 = .ok 4.0 := by
  intro next t fold recursion
  have hfirst : UnsplitBy [.additive] (firstOperand .multiplicative t) := by
    intro tier htier
    rw [List.mem_singleton.mp htier]
    rfl
  refine ⟨(splitTier_byLastSplit usual true 5 t { dice := .low }).1 [.additive] .multiplicative
    [.powers, .diceAndModulo] rfl hfirst ?_ ?_, ?_⟩ <;> decide +kernel

/-- `1+2*3` at the tier of products, which no looser tier was asked about. The fold hands the sum
before the star to all tiers, the recursion only to those that are tighter, and none of them can
read it. -/
theorem splitTier_byLastSplit_sum :
    let next := fun levels => tiersFrom usual (descend usual levels) [.powers, .diceAndModulo]
    let t : Text := ['1', '+', '2', '*', '3']
    let fold := splitTier usual (descend usual 5) .multiplicative (next 5) t { dice := .low }
    ∀ guarded,
      let recursion := byLastSplit usual guarded .multiplicative next 5 t { dice := .low }
      runsOut { dice := .low } fold = false ∧ runsOut { dice := .low } recursion = false ∧
        (seen fold).1 = .ok 9.0 ∧ (seen fold).2.1.problems = [] ∧
        (seen recursion).2.1.problems = [.notANumeral ['1', '+', '2']] := by
  decide +kernel

end Reckoner

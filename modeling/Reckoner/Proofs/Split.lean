import Reckoner.Proofs.ShortCircuit
import Reckoner.Proofs.Text.Scan

/-!
# A tier at its last split point

A tier folds all its operands from the left. Seen from the end, that is: the part before the
last split point first, by the same rule, then the operand after it, then the operator
(`splitTier_snoc`). Induction on expressions uses the tiers in this form.
-/

namespace Reckoner

/-! ## Symbols -/

theorem isBracket_symbol (o : Operator) : isBracket o.symbol = false := by cases o <;> rfl

theorem symbol_mem_symbols {o : Operator} {tier : Tier} (h : o ∈ tier.operators) :
    o.symbol ∈ tier.symbols := List.mem_map_of_mem h

theorem symbol_not_mem_symbols {o : Operator} {tier : Tier} (h : o ∉ tier.operators) :
    o.symbol ∉ tier.symbols := by
  intro hm
  obtain ⟨o', ho', hsymbol⟩ := List.mem_map.mp hm
  have heq : o' = o := by
    rw [← Operator.ofSymbol_symbol o', hsymbol, Operator.ofSymbol_symbol]
  exact h (heq ▸ ho')

/-- The tiers of binary operators, lowest precedence first. -/
def Tier.all : List Tier := [.additive, .multiplicative, .powers, .diceAndModulo]

/-! ## Cuts of a longer text -/

theorem cuts_snoc {l r : Text} {c : Char} {points : List Nat} (h : ∀ p ∈ points, p < l.length) :
    cuts (l ++ c :: r) (points ++ [l.length]) =
      cuts l points ++ [{ operator := .ofSymbol c, right := r, fragment := l ++ c :: r }] := by
  induction points with
  | nil =>
    have hchar : (l ++ c :: r).getD l.length ' ' = c := by simp
    have hright : (l ++ c :: r).drop (l.length + 1) = r := by simp
    rw [List.nil_append, cuts, cuts, List.headD_nil, List.take_length]
    rw [hchar, hright]
    rfl
  | cons p points ih =>
    have hp := h p List.mem_cons_self
    have hhead : (points ++ [l.length]).headD (l ++ c :: r).length = points.headD l.length := by
      cases points <;> rfl
    have hle : points.headD l.length ≤ l.length := by
      cases points with
      | nil => exact le_refl _
      | cons q points => exact (h q (by simp)).le
    have hchar : (l ++ c :: r).getD p ' ' = l.getD p ' ' := by
      simp [List.getD_eq_getElem?_getD, List.getElem?_append_left hp]
    rw [List.cons_append, cuts, cuts, hhead, List.take_append_of_le_length hle, hchar,
      ih fun q hq => h q (List.mem_cons_of_mem p hq)]
    rfl

namespace Eval

variable {σ : Type} {setting : Setting σ} {recur : Recur σ}

/-! ## Folding one more cut -/

theorem operand_of_ne_nil (recur : Recur σ) (neutral : Float) {t : Text} (ht : t ≠ []) :
    operand recur neutral t = recur .operand t := by
  rw [operand, List.isEmpty_eq_false_iff.mpr ht, if_neg Bool.false_ne_true]

/-- Applies the operator of a cut to two values and notes it. -/
def finishCut (setting : Setting σ) (left right : Float) (cut : Cut) : Eval σ Float := do
  let result ← combine setting cut.operator left right cut.fragment
  unlessFailed do
    note (.binary left cut.operator.symbol right result cut.fragment)
    return result

/-- Evaluates the operand of one cut and applies its operator. -/
def applyCut (setting : Setting σ) (recur : Recur σ) (neutral left : Float) (cut : Cut) :
    Eval σ Float := do
  let right ← operand recur neutral cut.right
  unlessFailed (finishCut setting left right cut)

theorem finishCut_apply (left right : Float) (cut : Cut) (s : Progress σ) :
    finishCut setting left right cut s =
      match combine setting cut.operator left right cut.fragment s with
      | .ok x t =>
        if t.failed then .ok 1.0 t
        else .ok x (t.add (.step (.binary left cut.operator.symbol right x cut.fragment)))
      | .error fault t => .error fault t := by
  rw [finishCut, bind_apply]
  cases combine setting cut.operator left right cut.fragment s with
  | error fault t => rfl
  | ok x t => exact unlessFailed_apply _ t

/-- After a guarded step one flag check does for both. -/
theorem unlessFailed_bind (m : Eval σ Float) (k : Float → Eval σ Float) :
    (unlessFailed m >>= fun x => unlessFailed (k x)) =
      unlessFailed (m >>= fun x => unlessFailed (k x)) := by
  funext s
  by_cases hs : s.failed = true
  · rw [bind_of_ok (unlessFailed_of_failed hs m), unlessFailed_of_failed hs,
      unlessFailed_of_failed hs]
  · rw [Bool.not_eq_true] at hs
    rw [unlessFailed_of_not_failed hs, bind_apply, bind_apply, unlessFailed_of_not_failed hs]

theorem settling_finishCut (left right : Float) (cut : Cut) :
    Settling IsOne (finishCut setting left right cut) := by
  refine (settling_combine _ _ _ _).bind fun result => Settling.guarded ?_
  exact .note_bind _ (.answer result)

theorem settling_applyCut (hr : ∀ entry t, Stops IsOne (recur entry t)) (neutral left : Float)
    (cut : Cut) : Settling IsOne (applyCut setting recur neutral left cut) :=
  (stops_operand hr neutral cut.right).settling.bind fun right =>
    (settling_finishCut left right cut).guarded

theorem applyCut_of_failed (hr : ∀ entry t, Stops IsOne (recur entry t)) (neutral left : Float)
    (cut : Cut) {s : Progress σ} (hs : s.failed = true) :
    applyCut setting recur neutral left cut s = .ok 1.0 s := by
  obtain ⟨a, ha, -⟩ := (stops_operand hr neutral cut.right).idle hs
  rw [applyCut, bind_of_ok ha, unlessFailed_of_failed hs]

theorem unlessFailed_applyCut (hr : ∀ entry t, Stops IsOne (recur entry t)) (neutral left : Float)
    (cut : Cut) :
    unlessFailed (applyCut setting recur neutral left cut) =
      applyCut setting recur neutral left cut := by
  funext s
  rw [unlessFailed_apply]
  split_ifs with hs
  · rw [applyCut_of_failed hr neutral left cut hs]
  · rfl

theorem foldCuts_snoc (hr : ∀ entry t, Stops IsOne (recur entry t)) (neutral left : Float)
    (cs : List Cut) (cut : Cut) :
    foldCuts setting recur neutral left (cs ++ [cut]) =
      foldCuts setting recur neutral left cs >>= fun x =>
        unlessFailed (applyCut setting recur neutral x cut) := by
  induction cs generalizing left with
  | nil => exact (unlessFailed_applyCut hr neutral left cut).symm
  | cons c cs ih =>
    rw [List.cons_append, foldCuts, foldCuts, bind_assoc]
    congr 1
    funext right
    rw [unlessFailed_bind, bind_assoc]
    congr 2
    funext result
    rw [unlessFailed_bind, bind_assoc]
    congr 2
    funext _
    exact ih result

/-! ## The last split point -/

variable {tier : Tier} {next : Text → Eval σ Float}

/-- The part of a text before the last split point: if nothing splits it, it is an operand. -/
def leftPart (setting : Setting σ) (recur : Recur σ) (tier : Tier) (next : Text → Eval σ Float)
    (l : Text) : Eval σ Float :=
  if splitPoints tier.symbols tier.signed l = [] then unlessFailed (operand recur tier.neutral l)
  else splitTier setting recur tier next l

/-- **A tier at its last split point.** -/
theorem splitTier_snoc (hr : ∀ entry t, Stops IsOne (recur entry t)) {l r : Text} {c : Char}
    (h : splitPoints tier.symbols tier.signed (l ++ c :: r) =
      splitPoints tier.symbols tier.signed l ++ [l.length]) :
    splitTier setting recur tier next (l ++ c :: r) =
      leftPart setting recur tier next l >>= fun x => unlessFailed
        (applyCut setting recur tier.neutral x
          { operator := .ofSymbol c, right := r, fragment := l ++ c :: r }) := by
  have hinside : ∀ p ∈ splitPoints tier.symbols tier.signed l, p < l.length :=
    fun p hp => lt_length_of_mem_splitPoints hp
  have hcuts := cuts_snoc (r := r) (c := c) hinside
  unfold leftPart splitTier
  cases hl : splitPoints tier.symbols tier.signed l with
  | nil =>
    rw [hl, List.nil_append] at h
    rw [hl, List.nil_append] at hcuts
    rw [h, if_pos rfl, unlessFailed_bind]
    dsimp only
    rw [hcuts, List.take_left]
    congr 2
    funext start
    exact foldCuts_snoc hr tier.neutral start [] _
  | cons first later =>
    have hfirst : first ≤ l.length := (lt_length_of_mem_splitPoints (hl ▸ List.mem_cons_self)).le
    rw [hl, List.cons_append] at h
    rw [hl, List.cons_append] at hcuts
    rw [h, if_neg (List.cons_ne_nil _ _), unlessFailed_bind, bind_assoc]
    dsimp only
    rw [hcuts, List.take_append_of_le_length hfirst]
    congr 2
    funext start
    exact foldCuts_snoc hr tier.neutral start _ _

theorem splitTier_of_unsplit {t : Text} (h : splitPoints tier.symbols tier.signed t = []) :
    splitTier setting recur tier next t = unlessFailed (next t) := by
  rw [splitTier, h]

/-! ## Tiers in a row -/

/-- The tiers of a list, then the factorial. -/
def tiersFrom (setting : Setting σ) (recur : Recur σ) : List Tier → Text → Eval σ Float
  | [] => factorialTier recur
  | tier :: tighter => splitTier setting recur tier (tiersFrom setting recur tighter)

theorem operators_eq_tiersFrom (setting : Setting σ) (recur : Recur σ) :
    operators setting recur = tiersFrom setting recur Tier.all := rfl

/-- None of the tiers splits the text. -/
def UnsplitBy (tiers : List Tier) (t : Text) : Prop :=
  ∀ tier ∈ tiers, splitPoints tier.symbols tier.signed t = []

theorem UnsplitBy.of_append {tiers : List Tier} {l r : Text} (h : UnsplitBy tiers (l ++ r)) :
    UnsplitBy tiers l := by
  intro tier ht
  have hsplit := h tier ht
  rw [splitPoints, splitPointsFrom_append, List.append_eq_nil_iff] at hsplit
  exact hsplit.1

theorem UnsplitBy.snoc {tiers : List Tier} {tier : Tier} {t : Text} (h : UnsplitBy tiers t)
    (ht : splitPoints tier.symbols tier.signed t = []) : UnsplitBy (tiers ++ [tier]) t := by
  intro tier' htier'
  rcases List.mem_append.mp htier' with htier' | htier'
  · exact h tier' htier'
  · rw [List.mem_singleton.mp htier']
    exact ht

variable {looser tighter : List Tier}

theorem unlessFailed_tiersFrom (tiers : List Tier) (t : Text) :
    unlessFailed (tiersFrom setting recur tiers t) = tiersFrom setting recur tiers t := by
  cases tiers <;> exact unlessFailed_unlessFailed _

/-- Tiers that do not split a text hand it on. -/
theorem tiersFrom_append {t : Text} (h : UnsplitBy looser t) :
    tiersFrom setting recur (looser ++ tighter) t = tiersFrom setting recur tighter t := by
  induction looser with
  | nil => rfl
  | cons tier looser ih =>
    rw [List.cons_append, tiersFrom, splitTier_of_unsplit (h tier List.mem_cons_self),
      unlessFailed_tiersFrom, ih fun tier ht => h tier (List.mem_cons_of_mem _ ht)]

end Eval

end Reckoner

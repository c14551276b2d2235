import Reckoner.Proofs.Group
import Reckoner.Proofs.Reach
import Mathlib.Data.Prod.Lex
import Mathlib.Data.Set.Finite.Lattice
import Mathlib.Order.WellFounded

/-!
# Evaluation ends without the limit on depth

The recursion of the evaluator is on the levels that the limits grant, but it does not need
them. Written down without levels it is one step for each stage (`stageStep`), in which stages
call one another; and all calls are on a smaller text or, on the same text, from a later stage
(`Smaller`). A folded text may be longer than before, so its length alone does not tell: what
counts first is the number of its round brackets, of which a round takes two away and the text
of a value brings none. So there is exactly one evaluation without levels, and the evaluation
with levels is that one as soon as there are enough of them.
-/

namespace Reckoner

/-! ## The measure -/

/-- The number of round brackets. -/
def parentheses (t : Text) : Nat := t.count '(' + t.count ')'

/-- Where in the evaluation of a text the control is. -/
inductive Stage where
  /-- Groups are folded, then all tiers follow. -/
  | groups
  /-- These tiers of binary operators, then the factorial and what binds tighter. -/
  | tiers (tighter : List Tier)
  /-- Functions, constants and numerals. -/
  | application

/-- The stage where a nested evaluation starts. -/
def Entry.stage : Entry → Stage
  | .whole => .groups
  | .operand => .tiers Tier.all
  | .factorial => .tiers []
  | .application => .application

/-- How many stages may still follow on the same text. -/
def Stage.rank : Stage → Nat
  | .groups => Tier.all.length + 1
  | .tiers tighter => tighter.length
  | .application => 0

/-- Fewer round brackets; or as many and a shorter text; or a text as long and a later stage. -/
def Smaller : Stage × Text → Stage × Text → Prop :=
  InvImage (Prod.Lex (· < ·) (Prod.Lex (· < ·) (· < ·)))
    fun p => (parentheses p.2, p.2.length, p.1.rank)

theorem wellFounded_smaller : WellFounded Smaller :=
  InvImage.wf _ (Nat.lt_wfRel.wf.prod_lex (Nat.lt_wfRel.wf.prod_lex Nat.lt_wfRel.wf))

theorem smaller_iff {p q : Stage × Text} :
    Smaller p q ↔ parentheses p.2 < parentheses q.2 ∨
      parentheses p.2 = parentheses q.2 ∧ (p.2.length < q.2.length ∨
        p.2.length = q.2.length ∧ p.1.rank < q.1.rank) := by
  simp only [Smaller, InvImage, Prod.lex_def]

theorem smaller_of_rank_lt {stage' stage : Stage} (h : stage'.rank < stage.rank) (t : Text) :
    Smaller (stage', t) (stage, t) := smaller_iff.mpr (.inr ⟨rfl, .inr ⟨rfl, h⟩⟩)

open Eval

theorem parentheses_le_of_isInfix {u t : Text} (h : u <:+: t) : parentheses u ≤ parentheses t :=
  Nat.add_le_add (h.sublist.count_le _) (h.sublist.count_le _)

/-- A round takes away one bracket of either kind. -/
theorem Eval.Folded.count_lt {t t' : Text} (h : Folded t t') {c : Char} (hc : c = '(' ∨ c = ')') :
    t'.count c < t.count c := by
  have hgroup : ∀ before inner after : Text, before.count c + inner.count c + after.count c <
      (before ++ '(' :: (inner ++ ')' :: after)).count c := by
    intro before inner after
    rcases hc with rfl | rfl
    · simp [List.count_append]
      omega
    · simp [List.count_append]
      omega
  cases h with
  | listed before inner after =>
    have hlist : (bracketed (splitTopLevel (· == ',') inner)).count c = inner.count c := by
      rcases hc with rfl | rfl <;> rw [count_bracketed (by decide) (by decide)] <;> simp
    have hmore := hgroup before inner after
    rw [List.count_append, List.count_append, hlist]
    exact hmore
  | @valued before inner after x hx =>
    have hnone : (valueText before x after).count c = 0 := by
      refine List.count_eq_zero_of_not_mem fun hmem => ?_
      have hplain := isBracket_of_mem_valueText hx c hmem
      rcases hc with rfl | rfl <;> cases hplain
    have hmore := hgroup before inner after
    rw [List.count_append, List.count_append, hnone]
    omega

theorem Eval.Folded.parentheses_lt {t t' : Text} (h : Folded t t') :
    parentheses t' < parentheses t :=
  Nat.add_lt_add (h.count_lt (.inl rfl)) (h.count_lt (.inr rfl))

/-- What comes of folding has fewer round brackets, if there was any round. -/
theorem Eval.FoldsTo.eq_or_parentheses_lt {t folded : Text} (h : FoldsTo t folded) :
    folded = t ∨ parentheses folded < parentheses t := by
  induction h with
  | refl => exact .inl rfl
  | tail _ hround ih =>
    right
    rcases ih with rfl | hlt
    · exact hround.parentheses_lt
    · exact hround.parentheses_lt.trans hlt

/-- A shorter part may be evaluated from any stage on. -/
theorem Part.smaller {u t : Text} (h : Part u t) (stage' stage : Stage) :
    Smaller (stage', u) (stage, t) := by
  have hle := parentheses_le_of_isInfix h.inside
  have hlt := h.shorter
  rw [smaller_iff]
  rcases hle.lt_or_eq with hfewer | hsame
  · exact .inl hfewer
  · exact .inr ⟨hsame, .inl hlt⟩

theorem Eval.Reenters.smaller {u t : Text} (h : Reenters t u) (stage' stage : Stage) :
    Smaller (stage', u) (stage, t) := by
  obtain ⟨folded, hfolds, hpart⟩ := h
  rcases hfolds.eq_or_parentheses_lt with rfl | hfewer
  · exact hpart.smaller stage' stage
  · exact smaller_iff.mpr (.inl ((parentheses_le_of_isInfix hpart.inside).trans_lt hfewer))

/-- All tiers follow on the folded text. -/
theorem Eval.FoldsTo.smaller {t folded : Text} (h : FoldsTo t folded) :
    Smaller (.tiers Tier.all, folded) (.groups, t) := by
  have hlater : Stage.rank (.tiers Tier.all) < Stage.rank .groups := Nat.lt_succ_self _
  rcases h.eq_or_parentheses_lt with rfl | hfewer
  · exact smaller_of_rank_lt hlater folded
  · exact smaller_iff.mpr (.inl hfewer)

theorem smaller_tighter (tier : Tier) (tighter : List Tier) (t : Text) :
    Smaller (.tiers tighter, t) (.tiers (tier :: tighter), t) := by
  have hlater : Stage.rank (.tiers tighter) < Stage.rank (.tiers (tier :: tighter)) :=
    Nat.lt_succ_self _
  exact smaller_of_rank_lt hlater t

/-! ## One step of each stage -/

variable {σ : Type}

namespace Eval

/-- A nested evaluation without a limit on depth. -/
def reentered (evaluation : Stage → Text → Eval σ Float) : Recur σ := fun entry t =>
  unlessFailed (nested (evaluation entry.stage t))

/-- One step of the evaluation from a stage on; whatever it calls is `evaluation`. -/
def stageStep (setting : Setting σ) (evaluation : Stage → Text → Eval σ Float) :
    Stage → Text → Eval σ Float
  | .groups, t => do
    let flat ← resolveGroups (reentered evaluation) t
    unlessFailed (evaluation (.tiers Tier.all) flat)
  | .tiers (tier :: tighter), t =>
    splitTier setting (reentered evaluation) tier (evaluation (.tiers tighter)) t
  | .tiers [], t => factorialTier (reentered evaluation) t
  | .application, t => application (reentered evaluation) t

end Eval

variable {setting : Setting σ} {evaluation evaluation' : Stage → Text → Eval σ Float}

/-- **Every call goes down.** A step of a stage calls the evaluation only where the measure is
smaller. -/
theorem stageStep_congr {stage : Stage} {t : Text}
    (h : ∀ stage' u, Smaller (stage', u) (stage, t) → evaluation stage' u = evaluation' stage' u) :
    stageStep setting evaluation stage t = stageStep setting evaluation' stage t := by
  -- a nested evaluation has a smaller text, whatever has been folded before
  have hreenters : ∀ entry u, Reenters t u →
      reentered evaluation entry u = reentered evaluation' entry u := by
    intro entry u hu
    rw [reentered, reentered, h entry.stage u (hu.smaller _ _)]
  have hparts : ∀ entry u, HandsOn t entry u →
      reentered evaluation entry u = reentered evaluation' entry u :=
    fun entry u hu => hreenters entry u (.of_part hu.part_of)
  cases stage with
  | groups =>
    refine respects_eq.sequence_of (respects_eq.resolveGroups (fun folded _ => .all folded) hreenters)
      fun flat hflat => ?_
    have hfolds := hflat.elim answers_resolveGroups answers_resolveGroups
    rw [h _ _ hfolds.smaller]
  | tiers list =>
    cases list with
    | nil => exact respects_eq.factorialTier (.all t) hparts
    | cons tier tighter =>
      have hnext := h _ _ (smaller_tighter tier tighter t)
      exact respects_eq.splitTier (.all t) hparts (fun _ _ _ => rfl) tier hnext
  | application => exact respects_eq.application (.all t) hparts

theorem stageStep_maxDepth (maxDepth : Int) (stage : Stage) (t : Text) :
    stageStep ⟨setting.source, { setting.limits with maxDepth }⟩ evaluation stage t =
      stageStep setting evaluation stage t := by
  cases stage with
  | groups => rfl
  | tiers list =>
    cases list with
    | nil => rfl
    | cons tier tighter =>
      exact respects_eq.splitTier (.all t) (fun _ _ _ => rfl)
        (fun _ => roll_withDepth setting maxDepth) tier rfl
  | application => rfl

/-! ## The evaluation without levels -/

/-- The evaluation without levels, by recursion on the measure. -/
noncomputable def unguarded (setting : Setting σ) (stage : Stage) (t : Text) : Eval σ Float :=
  wellFounded_smaller.fix (C := fun _ => Eval σ Float)
    (fun p later => stageStep setting
      (open Classical in fun stage' u =>
        if h : Smaller (stage', u) p then later (stage', u) h else pure 1.0) p.1 p.2) (stage, t)

theorem unguarded_eq (setting : Setting σ) (stage : Stage) (t : Text) :
    unguarded setting stage t = stageStep setting (unguarded setting) stage t := by
  rw [unguarded, wellFounded_smaller.fix_eq]
  refine stageStep_congr fun stage' u hu => ?_
  rw [dif_pos hu]
  rfl

/-- Only one evaluation follows its own steps. -/
theorem eq_of_stageStep (h : ∀ stage t, evaluation stage t = stageStep setting evaluation stage t)
    (h' : ∀ stage t, evaluation' stage t = stageStep setting evaluation' stage t) :
    evaluation = evaluation' := by
  have hall : ∀ p : Stage × Text, evaluation p.1 p.2 = evaluation' p.1 p.2 := by
    intro p
    induction p using wellFounded_smaller.induction with
    | _ p ih =>
      rw [h, h']
      exact stageStep_congr fun stage' u hu => ih (stage', u) hu
  funext stage t
  exact hall (stage, t)

/-! ## Enough levels -/

/-- There are finitely many doubles, so the texts of their values have a longest one. -/
theorem exists_longest_valueText :
    ∃ longest, ∀ before x after, (valueText before x after).length ≤ longest := by
  -- a double is told by its bits
  have hinjective : Function.Injective fun x : Float => x.toBits.toFin := by
    intro x y h
    have hbits : x.toBits = y.toBits := UInt64.toFin_inj.mp h
    rw [← ofBits_toBits x, hbits, ofBits_toBits]
  have hfinite : Finite Float := Finite.of_injective _ hinjective
  obtain ⟨longest, hlongest⟩ :=
    (Set.finite_range fun x : Float => (literalText x).length).bddAbove
  have htimes : ∀ neighbour, (timesBeside neighbour).length ≤ 1 := by
    intro neighbour
    unfold timesBeside
    split_ifs <;> simp
  refine ⟨1 + longest + 1, fun before x after => ?_⟩
  have hliteral : (literalText x).length ≤ longest := hlongest ⟨x, rfl⟩
  rw [valueText, List.length_append, List.length_append]
  exact Nat.add_le_add (Nat.add_le_add (htimes _) hliteral) (htimes _)

/-- A measure in one number, if no value is longer than `longest`: a round that makes the text
longer pays with a bracket. -/
def weight (longest : Nat) (t : Text) : Nat := t.length + longest * parentheses t

section Weight

variable {longest : Nat}
  (hlongest : ∀ before x after, (valueText before x after).length ≤ longest)
include hlongest

theorem Eval.Folded.weight_le {t t' : Text} (h : Folded t t') :
    weight longest t' ≤ weight longest t := by
  have hlength : t'.length ≤ t.length + longest := by
    cases h with
    | listed before inner after =>
      have hlist : (bracketed (splitTopLevel (· == ',') inner)).length = inner.length + 2 := by
        rw [bracketed, List.length_append, List.length_cons, splitTopLevel,
          (reseparated_join (· == ',') ';' 0 inner).length_eq]
        rfl
      simp only [List.length_append, List.length_cons, hlist]
      omega
    | @valued before inner after x hx =>
      have hvalue := hlongest before x after
      simp only [List.length_append, List.length_cons]
      omega
  -- one bracket less pays for a text that is longer by a value
  have hpays : longest * (parentheses t' + 1) ≤ longest * parentheses t :=
    Nat.mul_le_mul_left longest h.parentheses_lt
  rw [Nat.mul_add, Nat.mul_one] at hpays
  unfold weight
  omega

theorem Eval.Reenters.weight_lt {t u : Text} (h : Reenters t u) :
    weight longest u < weight longest t := by
  obtain ⟨folded, hfolds, hpart⟩ := h
  have hle : weight longest folded ≤ weight longest t :=
    hfolds.keeps (P := fun t' => weight longest t' ≤ weight longest t)
      (fun hround hle => (hround.weight_le hlongest).trans hle) le_rfl
  have hbrackets : longest * parentheses u ≤ longest * parentheses folded :=
    Nat.mul_le_mul_left longest (parentheses_le_of_isInfix hpart.inside)
  have hshorter := hpart.shorter
  unfold weight at hle ⊢
  omega

end Weight

/-- A step of the evaluator goes through the stages from its entry on. -/
theorem step_reentered (h : ∀ stage t, evaluation stage t = stageStep setting evaluation stage t)
    (entry : Entry) (t : Text) :
    step setting (reentered evaluation) entry t = evaluation entry.stage t := by
  have htiers : ∀ list t, evaluation (.tiers list) t =
      tiersFrom setting (reentered evaluation) list t := by
    intro list
    induction list with
    | nil => exact fun t => h (.tiers []) t
    | cons tier tighter ih =>
      intro t
      rw [h, stageStep, funext ih]
      rfl
  cases entry with
  | whole =>
    rw [Entry.stage, h, stageStep, funext (htiers Tier.all)]
    rfl
  | operand => exact (htiers Tier.all t).symm
  | factorial => exact (htiers [] t).symm
  | application => exact (h .application t).symm

/-- With enough levels a nested evaluation is the one without levels. -/
theorem descend_eq_reentered {longest : Nat}
    (hlongest : ∀ before x after, (valueText before x after).length ≤ longest)
    (h : ∀ stage t, evaluation stage t = stageStep setting evaluation stage t) {levels : Nat}
    (entry : Entry) {t : Text} (hlevels : weight longest t < levels) :
    descend setting levels entry t = reentered evaluation entry t := by
  induction levels generalizing entry t with
  | zero => cases hlevels
  | succ levels ih =>
    have hstep : step setting (descend setting levels) entry t =
        step setting (reentered evaluation) entry t :=
      respects_eq.evalStep (fun folded _ => .all folded) (fun entry u hu => ih entry
        ((hu.weight_lt hlongest).trans_le (Nat.le_of_lt_succ hlevels))) (fun _ _ _ _ _ => rfl) entry
    rw [descend, hstep, step_reentered h, reentered]

/-! ## Enough rounds -/

section Rounds

variable {recur : Recur σ}

theorem foldGroups_of_failed {s : Progress σ} (hs : s.failed = true) (rounds : Nat) (t : Text) :
    foldGroups recur rounds t s = .ok t s := by
  cases rounds with
  | zero => rfl
  | succ rounds =>
    rw [foldGroups, failed_bind, if_pos hs]
    rfl

theorem foldGroups_of_no_closer {t : Text} (ht : ')' ∉ t) (rounds : Nat) (s : Progress σ) :
    foldGroups recur rounds t s = .ok t s := by
  cases rounds with
  | zero => rfl
  | succ rounds =>
    rw [foldGroups, failed_bind, splitAtCloser_of_not_mem ht]
    split_ifs <;> rfl

/-- A round without a problem is one of folding. -/
theorem folded_of_foldGroup {before inner after folded : Text} {s u : Progress σ}
    (h : foldGroup recur (.between before inner after) inner s = .ok folded u)
    (hu : u.failed = false) : Folded (before ++ '(' :: (inner ++ ')' :: after)) folded := by
  obtain ⟨-, ⟨-, -, rfl, -⟩ | ⟨-, x, v, -, -, hx, rfl, -⟩⟩ := foldGroup_eq_ok h hu
  · exact .listed before inner after
  · exact .valued before inner after hx

/-- Where there are as many rounds as closers, one more does nothing. -/
theorem foldGroups_succ_eq {rounds : Nat} {t : Text} (h : t.count ')' ≤ rounds) :
    foldGroups recur (rounds + 1) t = foldGroups recur rounds t := by
  funext s
  induction rounds generalizing t s with
  | zero =>
    have hnone : ')' ∉ t := List.count_eq_zero.mp (Nat.le_zero.mp h)
    rw [foldGroups_of_no_closer hnone, foldGroups_of_no_closer hnone]
  | succ rounds ih =>
    obtain (hs | hnone) | hunopened | ⟨before, inner, after, rfl, -, -, hround⟩ :=
      foldGroups_cases recur t s
    · rw [foldGroups_of_failed hs, foldGroups_of_failed hs]
    · rw [foldGroups_of_no_closer hnone, foldGroups_of_no_closer hnone]
    · rw [hunopened, hunopened]
    · rw [hround, hround, bind_apply, bind_apply]
      cases hrun : foldGroup recur (.between before inner after) inner s with
      | error fault u => rfl
      | ok folded u =>
        dsimp only
        -- a problem ends the folding on both sides, and else a closer is gone
        by_cases hu : u.failed = true
        · rw [foldGroups_of_failed hu, foldGroups_of_failed hu]
        · have hfolded := folded_of_foldGroup hrun (by simpa using hu)
          exact ih (by have := hfolded.count_lt (.inr rfl); omega) u

/-- **Rounds of folding.** More rounds than there are closers change nothing. -/
theorem foldGroups_eq {rounds : Nat} {t : Text} (h : t.count ')' ≤ rounds) :
    foldGroups recur rounds t = foldGroups recur (t.count ')') t := by
  induction rounds, h using Nat.le_induction with
  | base => rfl
  | succ rounds hle ih => rw [foldGroups_succ_eq hle, ih]

/-- Folding ends of itself: with a problem, or when no closer is left. -/
theorem foldGroups_ends {rounds : Nat} {t flat : Text} {s u : Progress σ}
    (h : t.count ')' ≤ rounds) (hrun : foldGroups recur rounds t s = .ok flat u) :
    u.failed = true ∨ ')' ∉ flat := by
  induction rounds generalizing t s with
  | zero =>
    cases hrun
    exact .inr (List.count_eq_zero.mp (Nat.le_zero.mp h))
  | succ rounds ih =>
    obtain (hs | hnone) | hunopened | ⟨before, inner, after, rfl, -, -, hround⟩ :=
      foldGroups_cases recur t s
    · rw [foldGroups_of_failed hs] at hrun
      cases hrun
      exact .inl hs
    · rw [foldGroups_of_no_closer hnone] at hrun
      cases hrun
      exact .inr hnone
    · rw [hunopened] at hrun
      cases hrun
      exact .inl (Progress.failed_add_problem _ _)
    · rw [hround] at hrun
      obtain ⟨folded, v, hfold, hrest⟩ := bind_eq_ok.mp hrun
      by_cases hv : v.failed = true
      · rw [foldGroups_of_failed hv] at hrest
        cases hrest
        exact .inl hv
      · have hfolded := folded_of_foldGroup hfold (by simpa using hv)
        exact ih (by have := hfolded.count_lt (.inr rfl); omega) hrest

end Rounds

/-! ## Termination -/

/-- **Evaluation ends without the limit on depth.** A step of any stage calls the evaluation
only where there are fewer round brackets, or as many in a shorter text, or the same text at a
later stage, and this order has no infinite descent; so without any levels there is exactly one
evaluation. For every text it is the evaluation under every limit on depth that is greater
than a number computed from the text. Groups are folded in at most as many rounds as there
are closers: more rounds change nothing, and after so many there is a problem or no closer is
left. -/
theorem evaluation_terminates (setting : Setting σ) :
    WellFounded Smaller ∧
      (∀ (call call' : Stage → Text → Eval σ Float) stage t,
        (∀ stage' u, Smaller (stage', u) (stage, t) → call stage' u = call' stage' u) →
          stageStep setting call stage t = stageStep setting call' stage t) ∧
      (∃ evaluation : Stage → Text → Eval σ Float,
        (∀ call, (∀ stage t, call stage t = stageStep setting call stage t) ↔ call = evaluation) ∧
        ∃ longest, ∀ (maxDepth : Int) entry t,
          (t.length + longest * parentheses t : Nat) < maxDepth →
            topmost ⟨setting.source, { setting.limits with maxDepth }⟩ entry t =
              reentered evaluation entry t) ∧
      (∀ (recur : Recur σ) rounds t, t.count ')' ≤ rounds →
        foldGroups recur rounds t = foldGroups recur (t.count ')') t) ∧
      ∀ (recur : Recur σ) t s flat u, foldGroups recur (t.count ')') t s = .ok flat u →
        u.failed = true ∨ ')' ∉ flat := by
  obtain ⟨longest, hlongest⟩ := exists_longest_valueText
  have hsteps := unguarded_eq setting
  refine ⟨wellFounded_smaller, fun _ _ _ _ => stageStep_congr, ⟨unguarded setting, ?_, longest, ?_⟩,
    fun _ _ _ => foldGroups_eq, fun _ _ _ _ _ => foldGroups_ends le_rfl⟩
  · intro call
    constructor
    · exact fun h => eq_of_stageStep h hsteps
    · rintro rfl
      exact hsteps
  · intro maxDepth entry t hlimit
    have hlevels : weight longest t < maxDepth.toNat := by
      unfold weight
      omega
    have hlimited : ∀ stage t, unguarded setting stage t =
        stageStep ⟨setting.source, { setting.limits with maxDepth }⟩ (unguarded setting) stage t :=
      fun stage t => (hsteps stage t).trans (stageStep_maxDepth maxDepth stage t).symm
    exact descend_eq_reentered hlongest hlimited entry hlevels

end Reckoner

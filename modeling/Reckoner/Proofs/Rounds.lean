import Reckoner.Proofs.Outcome
import Reckoner.Proofs.Splice
import Reckoner.Proofs.Termination

/-!
# What the rounds of folding keep

Brackets are counted once, before the first round, although every round takes text away and
may write square brackets of its own. A round that succeeds takes one group out of the text and
leaves all around it as it is (`TakesGroup`). The square brackets stay even because a group
that is evaluated went through the same count: its evaluation would not have succeeded
otherwise (`count_square_of_clear`). So the brackets are even after any number of rounds, and
when no closer is left there is no opener either.
-/

namespace Reckoner

open Eval

variable {σ : Type} {recur : Recur σ} {s u v : Progress σ} {t t' : Text}

/-! ## One round -/

/-- One group is taken out of `t` and something without round brackets is put in its place:
the group that the first closer ends, which has no group of its own. -/
def TakesGroup (t t' : Text) : Prop :=
  ∃ before inner mid after, t = before ++ '(' :: (inner ++ ')' :: after) ∧
    ')' ∉ before ∧ Flat inner ∧ t' = before ++ mid ++ after ∧ Flat mid

theorem TakesGroup.count (h : TakesGroup t t') {c : Char} (hc : c = '(' ∨ c = ')') :
    t.count c = t'.count c + 1 := by
  obtain ⟨before, inner, mid, after, rfl, -, hinner, rfl, hmid⟩ := h
  exact count_group hinner hmid hc

/-- A group that could not be folded is left where it was. -/
theorem eq_whole_of_foldGroup {site : Site} {inner folded : Text} (hs : s.failed = false)
    (h : foldGroup recur site inner s = .ok folded u) (hu : u.failed = true) :
    folded = site.whole := by
  unfold foldGroup at h
  dsimp only at h
  split_ifs at h
  · cases h
    rfl
  · cases h
    rfl
  · -- a list of arguments is no problem
    rw [note_bind] at h
    cases h
    rw [Progress.failed_add_step, hs] at hu
    cases hu
  · obtain ⟨value, v, -, h⟩ := bind_eq_ok.mp h
    rw [failed_bind] at h
    split_ifs at h with hv
    · cases h
      rfl
    · cases h
      rfl
    · -- nor is a value that is written down
      obtain ⟨left, right, -, -, -, rfl⟩ := insertValue_eq_ok h
      rw [Progress.failed_add_step] at hu
      exact absurd hu hv

/-- A round that fails gives back the text that it was given. -/
theorem eq_of_round_of_failed (hs : s.failed = false)
    (h : foldGroups recur 1 t s = .ok t' u) (hu : u.failed = true) : t' = t := by
  obtain (hdone | hnone) | hunopened | ⟨before, inner, after, rfl, -, -, hround⟩ :=
    foldGroups_cases recur t s
  · rw [foldGroups_of_failed hdone] at h
    cases h
    rfl
  · rw [foldGroups_of_no_closer hnone] at h
    cases h
    rfl
  · rw [hunopened] at h
    cases h
    rfl
  · rw [hround] at h
    obtain ⟨folded, w, hfold, hpure⟩ := bind_eq_ok.mp h
    cases hpure
    rw [eq_whole_of_foldGroup hs hfold hu]
    simp [Site.between]

/-- What has to be known of nested evaluations: they count square brackets. -/
def CountsSquare (recur : Recur σ) : Prop :=
  ∀ {t s a u}, recur .whole t s = .ok a u → u.failed = false → t.count '[' = t.count ']'

/-- **One round.** A round that succeeds takes one group out of the text and does not change
the difference of the square brackets. -/
theorem takesGroup_of_round (hsquare : CountsSquare recur) (hs : s.failed = false)
    (ht : ')' ∈ t) (h : foldGroups recur 1 t s = .ok t' u) (hu : u.failed = false) :
    TakesGroup t t' ∧ t'.count '[' + t.count ']' = t'.count ']' + t.count '[' := by
  obtain ⟨before, inner, after, rfl, hbefore, hinner, hround⟩ :=
    exists_group_of_foldGroups hs ht h hu
  obtain ⟨folded, w, hfold, hpure⟩ := bind_eq_ok.mp hround
  cases hpure
  obtain ⟨mid, rfl, hmid, hkeeps⟩ := foldGroup_keeps hsquare hinner hfold hu
  refine ⟨⟨before, inner, mid, after, rfl, hbefore, hinner, rfl, hmid⟩, ?_⟩
  simp only [List.count_append, List.count_cons]
  simp
  omega

/-! ## All rounds -/

/-- The rounds follow one another. -/
theorem foldGroups_succ_eq_bind (rounds : Nat) (t : Text) :
    foldGroups recur (rounds + 1) t = foldGroups recur 1 t >>= foldGroups recur rounds := by
  funext s
  obtain (hs | hnone) | hunopened | ⟨before, inner, after, rfl, -, -, hround⟩ :=
    foldGroups_cases recur t s
  · rw [bind_of_ok (foldGroups_of_failed hs 1 t), foldGroups_of_failed hs, foldGroups_of_failed hs]
  · rw [bind_of_ok (foldGroups_of_no_closer hnone 1 s), foldGroups_of_no_closer hnone,
      foldGroups_of_no_closer hnone]
  · rw [bind_of_ok (hunopened 0), hunopened, foldGroups_of_failed (Progress.failed_add_problem _ _)]
  · rw [bind_apply, hround, hround, bind_apply, bind_apply]
    cases foldGroup recur (.between before inner after) inner s <;> rfl

theorem foldGroups_add (rounds more : Nat) (t : Text) :
    foldGroups recur (rounds + more) t = foldGroups recur rounds t >>= foldGroups recur more := by
  induction rounds generalizing t with
  | zero => rw [Nat.zero_add, foldGroups, pure_bind]
  | succ rounds ih =>
    rw [Nat.succ_add, foldGroups_succ_eq_bind, foldGroups_succ_eq_bind rounds t, bind_assoc]
    exact congrArg _ (funext ih)

/-- Both kinds of brackets are even in number. -/
structure EvenBrackets (t : Text) : Prop where
  round : t.count '(' = t.count ')'
  square : t.count '[' = t.count ']'

/-- A round leaves the brackets even, or a problem. -/
theorem EvenBrackets.round_keeps (hsquare : CountsSquare recur) (ht : EvenBrackets t)
    (h : foldGroups recur 1 t s = .ok t' u) (hu : u.failed = false) (hs : s.failed = false) :
    EvenBrackets t' := by
  by_cases hmem : ')' ∈ t
  · obtain ⟨htakes, hkeeps⟩ := takesGroup_of_round hsquare hs hmem h hu
    have hopen := htakes.count (.inl rfl)
    have hclose := htakes.count (.inr rfl)
    have hround := ht.round
    have hsquares := ht.square
    exact ⟨by omega, by omega⟩
  · rw [foldGroups_of_no_closer hmem] at h
    cases h
    exact ht

/-- **The invariant of folding.** After any number of rounds there is a problem, or the
brackets are even. -/
theorem EvenBrackets.of_foldGroups (hsquare : CountsSquare recur) (ht : EvenBrackets t)
    {rounds : Nat} (h : foldGroups recur rounds t s = .ok t' u) (hs : s.failed = false) :
    u.failed = true ∨ EvenBrackets t' := by
  induction rounds generalizing t s with
  | zero =>
    cases h
    exact .inr ht
  | succ rounds ih =>
    rw [foldGroups_succ_eq_bind] at h
    obtain ⟨between, v, hround, hrest⟩ := bind_eq_ok.mp h
    cases hv : v.failed with
    | true =>
      rw [foldGroups_of_failed hv] at hrest
      cases hrest
      exact .inl hv
    | false => exact ih (ht.round_keeps hsquare hround hv hs) hrest hv

theorem EvenBrackets.flat (ht : EvenBrackets t) (hnone : ')' ∉ t) : Flat t :=
  ⟨List.count_eq_zero.mp (ht.round.trans (List.count_eq_zero_of_not_mem hnone)), hnone⟩

/-- Uneven brackets are refused, and the text comes back as it was. -/
theorem resolveGroups_of_not_even (ht : ¬EvenBrackets t) (s : Progress σ) :
    ∃ u, resolveGroups recur t s = .ok t u ∧ u.failed = true := by
  by_cases hround : t.count '(' = t.count ')'
  · have huneven : t.count '[' ≠ t.count ']' := fun hsquare => ht ⟨hround, hsquare⟩
    rw [resolveGroups_of_even hround, if_neg huneven]
    exact ⟨_, rfl, Progress.failed_add_problem _ _⟩
  · rw [resolveGroups_of_uneven hround]
    split_ifs
    · exact ⟨_, rfl, Progress.failed_add_problem _ _⟩
    · exact ⟨_, rfl, Progress.failed_add_problem _ _⟩

theorem EvenBrackets.resolveGroups_eq (ht : EvenBrackets t) :
    resolveGroups recur t = foldGroups recur (t.count ')') t := by
  rw [resolveGroups_of_even ht.round, if_pos ht.square]

/-- **Groups are resolved, or there is a problem.** From a state without a problem, resolving
the groups of any text ends with a problem or with a text that has no round brackets and as many
`[` as `]`. Where the brackets are uneven to begin with, the text comes back with a problem;
otherwise rounds follow one another, one for each closer. A round that fails gives back the
text that it was given. One that succeeds takes out exactly one group, so one `(` and one `)`
with it, keeps the numbers of `[` and `]` equal, and leaves the text before and after the group
as it was. -/
theorem resolveGroups_rounds (setting : Setting σ) (levels : Nat) (t : Text) (s : Progress σ)
    (hs : s.failed = false) :
    (∀ flat u, resolveGroups (descend setting levels) t s = .ok flat u →
      u.failed = true ∨ '(' ∉ flat ∧ ')' ∉ flat ∧ flat.count '[' = flat.count ']') ∧
    (¬EvenBrackets t →
      ∃ u, resolveGroups (descend setting levels) t s = .ok t u ∧ u.failed = true) ∧
    (EvenBrackets t →
      (resolveGroups (descend setting levels) t : Eval σ Text) =
        foldGroups (descend setting levels) (t.count ')') t ∧
      ∀ rounds t' v, foldGroups (descend setting levels) rounds t s = .ok t' v →
        v.failed = false → ')' ∈ t' →
          foldGroups (descend setting levels) (rounds + 1) t s =
            foldGroups (descend setting levels) 1 t' v ∧
          ∀ t'' w, foldGroups (descend setting levels) 1 t' v = .ok t'' w →
            (w.failed = true → t'' = t') ∧
            (w.failed = false → TakesGroup t' t'' ∧
              t'.count '(' = t''.count '(' + 1 ∧ t'.count ')' = t''.count ')' + 1 ∧
              t'.count '[' = t'.count ']' ∧ t''.count '[' = t''.count ']')) := by
  have hsquare : CountsSquare (descend setting levels) := count_square_of_clear
  refine ⟨fun flat u hrun => ?_, fun ht => resolveGroups_of_not_even ht s,
    fun ht => ⟨ht.resolveGroups_eq, fun rounds t' v hreach hv hmem => ⟨?_, fun t'' w hround => ?_⟩⟩⟩
  · by_cases ht : EvenBrackets t
    · rw [ht.resolveGroups_eq] at hrun
      rcases foldGroups_ends le_rfl hrun with hfailed | hnone
      · exact .inl hfailed
      · refine (ht.of_foldGroups hsquare hrun hs).imp_right fun heven => ?_
        exact ⟨(heven.flat hnone).1, hnone, heven.square⟩
    · have hrefused : ∃ w, resolveGroups (descend setting levels) t s = .ok t w ∧
          w.failed = true := resolveGroups_of_not_even ht s
      obtain ⟨w, hrefused, hw⟩ := hrefused
      rw [hrefused] at hrun
      cases hrun
      exact .inl hw
  · rw [foldGroups_add, bind_of_ok hreach]
  · refine ⟨eq_of_round_of_failed hv hround, fun hw => ?_⟩
    have heven : EvenBrackets t' := by
      refine (ht.of_foldGroups hsquare hreach hs).resolve_left ?_
      rw [hv]
      exact Bool.false_ne_true
    obtain ⟨htakes, -⟩ := takesGroup_of_round hsquare hv hmem hround hw
    exact ⟨htakes, htakes.count (.inl rfl), htakes.count (.inr rfl), heven.square,
      (heven.round_keeps hsquare hround hw hv).square⟩

/-- The second round of `max((2),3)` is of a group that the first has left. -/
theorem resolveGroups_rounds_maximum :
    let t : Text := ['m', 'a', 'x', '(', '(', '2', ')', ',', '3', ')']
    let s : Progress Feed := { dice := .low }
    s.failed = false ∧ EvenBrackets t ∧
      ∃ first u, foldGroups (descend usual 3) 1 t s = .ok first u ∧ u.failed = false ∧
        ')' ∈ first ∧
        ∃ flat w, foldGroups (descend usual 3) 1 first u = .ok flat w ∧ w.failed = false ∧
          flat = ['m', 'a', 'x', '[', '2', '.', '0', ';', '3', ']'] ∧ TakesGroup first flat ∧
          resolveGroups (descend usual 3) t s = .ok flat w := by
  intro t s
  have heven : EvenBrackets t := ⟨by decide, by decide⟩
  have hfirst : ∃ u, foldGroups (descend usual 3) 1 t s =
      .ok ['m', 'a', 'x', '(', '2', '.', '0', ',', '3', ')'] u ∧ u.failed = false := by
    decide +kernel
  obtain ⟨u, hreach, hu⟩ := hfirst
  have hboth : ∃ w, foldGroups (descend usual 3) 2 t s =
      .ok ['m', 'a', 'x', '[', '2', '.', '0', ';', '3', ']'] w ∧ w.failed = false := by
    decide +kernel
  obtain ⟨w, hboth, hw⟩ := hboth
  obtain ⟨-, -, hrounds⟩ := resolveGroups_rounds usual 3 t s rfl
  obtain ⟨hresolve, hround⟩ := hrounds heven
  obtain ⟨hnext, htakes⟩ := hround 1 _ u hreach hu (by decide)
  have hsecond := hnext.symm.trans hboth
  refine ⟨rfl, heven, _, u, hreach, hu, by decide, _, w, hsecond, hw, rfl, ?_, ?_⟩
  · exact ((htakes _ w hsecond).2 hw).1
  · rw [hresolve]
    exact hboth

end Reckoner

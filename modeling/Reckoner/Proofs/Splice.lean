import Reckoner.Proofs.Foreign
import Reckoner.Proofs.Limits

/-!
# Groups inside a larger text

The groups of a text are folded in the same way when the text stands in a larger one: the
first `)` of the whole is one of its own as long as there is none before it, and the neighbours
of its groups are the same unless digits stand next to it (`foldGroups_within`). Once it has no
groups left, the text is evaluated as it was alone, and its value takes its place
(`foldGroups_group`).
-/

namespace Reckoner

open Eval

variable {σ : Type} {setting setting' : Setting σ} {lost : Problem → Prop} {exact : Prop}
  {recur recur' : Recur σ} {s u s' : Progress σ}

/-! ## One round -/

section Within

variable {pre post : Text} (hpre : timesBeside pre.getLast? = [])
  (hpost : timesBeside post.head? = [])
include hpre hpost

theorem valueText_within (before : Text) (value : Float) (after : Text) :
    valueText (pre ++ before) value (after ++ post) = valueText before value after := by
  have hleft : timesBeside (pre ++ before).getLast? = timesBeside before.getLast? := by
    cases before using List.reverseRecOn with
    | nil => rw [List.append_nil, hpre]; rfl
    | append_singleton before c => rw [← List.append_assoc, List.getLast?_concat, List.getLast?_concat]
  have hright : timesBeside (after ++ post).head? = timesBeside after.head? := by
    cases after with
    | nil => rw [List.nil_append, hpost]; rfl
    | cons c after => rfl
  rw [valueText, valueText, hleft, hright]

variable (hr : ∀ entry t, Follows setting lost exact (recur entry t) (recur' entry t))
include hr

theorem foldGroup_within {before inner after folded : Text} (h : Alike exact s s')
    (hfold : foldGroup recur (.between before inner after) inner s = .ok folded u)
    (hu : u.failed = false) :
    ∃ u', foldGroup recur' (.between (pre ++ before) inner (after ++ post)) inner s' =
        .ok (pre ++ folded ++ post) u' ∧ Tracks exact s u s' u' := by
  obtain ⟨hempty, ⟨hlist, hparts, rfl, rfl⟩ | ⟨hlist, value, v, hrun, hv, hvalue, rfl, rfl⟩⟩ :=
    foldGroup_eq_ok hfold hu
  · refine ⟨_, ?_, .add h _⟩
    rw [foldGroup_list hempty hlist hparts]
    simp only [Site.replaced, Site.between, List.append_assoc]
  · obtain ⟨v', hrun', htracks⟩ := (hr .whole inner).run h hrun hv
    have hv' : v'.failed = false := htracks.alike.failed.trans hv
    refine ⟨_, ?_, htracks.trans (.add htracks.alike _)⟩
    rw [foldGroup_value hempty hlist hrun', hv', hvalue, valueText_within hpre hpost]
    simp only [List.append_assoc, Bool.not_true, Bool.false_eq_true, if_false]

/-! ## All rounds -/

/-- **Folding in a context.** The rounds that fold the groups of a text alone fold them in the
same way inside a larger text, and leave what is around it for the rounds that follow. -/
theorem foldGroups_within (hstops : ∀ entry t, Stops IsOne (recur entry t))
    (hsquare : ∀ {t s a u}, recur .whole t s = .ok a u → u.failed = false →
      t.count '[' = t.count ']')
    (hcloser : ')' ∉ pre) {rounds : Nat} {t flat : Text} (hclose : t.count ')' = rounds)
    (hopen : t.count '(' = rounds) (h : Alike exact s s')
    (hfold : foldGroups recur rounds t s = .ok flat u) (hu : u.failed = false) (more : Nat) :
    ∃ u', foldGroups recur' (rounds + more) (pre ++ t ++ post) s' =
        foldGroups recur' more (pre ++ flat ++ post) u' ∧ Tracks exact s u s' u' ∧ Flat flat ∧
      flat.count '[' + t.count ']' = flat.count ']' + t.count '[' := by
  induction rounds generalizing t s s' with
  | zero =>
    cases hfold
    refine ⟨s', by rw [Nat.zero_add], .refl h, ⟨?_, ?_⟩, Nat.add_comm _ _⟩
    · exact List.count_eq_zero.mp hopen
    · exact List.count_eq_zero.mp hclose
  | succ rounds ih =>
    have hmem : ')' ∈ t := List.count_pos_iff.mp (by omega)
    obtain ⟨hs, before, inner, after, folded, v, rfl, hbefore, hinner, hfirst, hv, hrest⟩ :=
      exists_first_round hstops hmem hfold hu
    obtain ⟨mid, rfl, hmid, hmidsquare⟩ := foldGroup_keeps hsquare hinner hfirst hv
    obtain ⟨v', hfirst', htracks⟩ := foldGroup_within hpre hpost hr h hfirst hv
    have hs' : s'.failed = false := h.failed.trans hs
    obtain ⟨hclose', hopen'⟩ := count_folded hinner hmid hclose hopen
    obtain ⟨u', hrun, htracks', hflat, hkeeps⟩ := ih hclose' hopen' htracks.alike hrest
    refine ⟨u', ?_, htracks.trans htracks', hflat, ?_⟩
    -- the first closer is where it was, since the context in front has none
    · have hcontext : ')' ∉ pre ++ before := by
        simp [hcloser, hbefore]
      have htext : pre ++ (before ++ '(' :: (inner ++ ')' :: after)) ++ post =
          (pre ++ before) ++ '(' :: (inner ++ ')' :: (after ++ post)) := by
        simp
      rw [htext, Nat.succ_add, foldGroups_succ hcontext hinner _ _ hs', bind_of_ok hfirst', hrun]
    · simp only [List.count_append, List.count_cons] at hkeeps ⊢
      simp
      omega

end Within

/-! ## A text by itself -/

/-- The text that is left when the groups of `t` are folded, as a nested evaluation from a
state would fold them. -/
def foldedText (setting : Setting σ) (levels : Nat) (t : Text) (s : Progress σ) : Text :=
  match resolveGroups (descend setting levels) t (deeper s) with
  | .ok flat _ => flat
  | .error _ _ => t

/-- The parts of a whole evaluation that ends without a problem. -/
structure Parts (setting : Setting σ) (levels : Nat) (t : Text) (value : Float)
    (s u : Progress σ) : Prop where
  round : t.count '(' = t.count ')'
  square : t.count '[' = t.count ']'
  runs : ∃ w v, foldGroups (descend setting levels) (t.count ')') t (deeper s) =
      .ok (foldedText setting levels t s) w ∧ w.failed = false ∧
    operators setting (descend setting levels) (foldedText setting levels t s) w = .ok value v ∧
    v.failed = false ∧ u = atDepth s.depth v

theorem parts_of_clear {levels : Nat} {t : Text} {value : Float}
    (h : descend setting (levels + 1) .whole t s = .ok value u) (hu : u.failed = false) :
    Parts setting levels t value s u := by
  have hstops : ∀ entry t, Stops IsOne (descend setting levels entry t : Eval σ Float) :=
    stops_descend setting levels
  have hs : s.failed = false := (stops_descend setting (levels + 1) .whole t).clear h hu
  rw [descend, unlessFailed_of_not_failed hs] at h
  obtain ⟨-, v, hv, rfl⟩ := nested_eq_ok.mp h
  have hclear : v.failed = false := hu
  obtain ⟨flat, w, hresolve, hoperators⟩ := bind_eq_ok.mp hv
  have hw : w.failed = false :=
    ((stops_operators hstops flat).settling.guarded).clear hoperators hclear
  rw [unlessFailed_of_not_failed hw] at hoperators
  have hfolded : foldedText setting levels t s = flat := by
    rw [foldedText, hresolve]
  obtain ⟨hround, hsquare, hfold⟩ := even_of_resolveGroups hresolve hw
  exact ⟨hround, hsquare, w, v, by rw [hfolded, hfold], hw, by rw [hfolded, hoperators],
    hclear, rfl⟩

/-- Without a level to spend nothing is evaluated. -/
theorem exists_levels_of_clear {stack : Stack} {s u : Progress σ stack} {levels : Nat}
    {entry : Entry} {t : Text} {value : Float}
    (h : descend setting levels entry t s = .ok value u) (hu : u.failed = false) :
    ∃ n, levels = n + 1 := by
  cases levels with
  | succ n => exact ⟨n, rfl⟩
  | zero =>
    have hfails : Fails (descend setting 0 entry t : Eval σ Float stack) :=
      (fails_refuse _).guarded
    rw [hfails h] at hu
    cases hu

theorem count_square_of_clear {levels : Nat} {t : Text} {value : Float}
    (h : descend setting levels .whole t s = .ok value u) (hu : u.failed = false) :
    t.count '[' = t.count ']' := by
  obtain ⟨n, rfl⟩ := exists_levels_of_clear h hu
  exact (parts_of_clear h hu).square

/-! ## What is left of a text -/

/-- No tier can make a number of nothing. -/
theorem fails_operators_nil {recur : Recur σ} : Fails (operators setting recur []) := by
  have happlication : Fails (application recur []) := by
    refine Fails.guarded ?_
    exact fails_refuse (.notANumeral [])
  have hfactorial : Fails (factorialTier recur []) := Fails.guarded happlication
  rw [operators, splitTier_of_unsplit rfl, splitTier_of_unsplit rfl, splitTier_of_unsplit rfl,
    splitTier_of_unsplit rfl]
  exact hfactorial.guarded.guarded.guarded.guarded

/-- What the operators accept of a text without groups has no comma, and is not empty. -/
theorem single_of_operators {levels : Nat} {flat : Text} {value : Float}
    (hflat : Flat flat)
    (h : operators setting (descend setting levels) flat s = .ok value u) (hu : u.failed = false) :
    flat ≠ [] ∧ (splitTopLevel (· == ',') flat).length = 1 := by
  constructor
  · rintro rfl
    rw [fails_operators_nil h] at hu
    cases hu
  · have hcomma : ',' ∉ flat := by
      intro hmem
      have hfails : Fails (operators setting (descend setting levels) flat) :=
        foreign_comma.fails_operators (stops_descend setting levels)
          (fun entry t ht ho => foreign_comma.fails_descend setting levels entry ht ho) hmem hflat.1
      rw [hfails h] at hu
      cases hu
    rw [splitTopLevel, splitTopLevelFrom_of_forall, List.length_singleton]
    intro c hc
    refine beq_false_of_ne ?_
    rintro rfl
    exact hcomma hc

/-! ## A group inside a larger text -/

/-- **A group and its contents.** Where a text stands as a group in a larger one, its own
groups are folded first, then it is evaluated, all as it would be by itself with one level
less; and the value it has by itself is put in its place. -/
theorem foldGroups_group (hv : Varied setting setting' lost exact)
    (hdeep : ∀ most, lost (.tooDeep most)) {levels : Nat} {t : Text} {value : Float}
    (h : descend setting (levels + 1) .whole t s = .ok value u) (hu : u.failed = false)
    (hvalue : value.isFinite = true) (halike : Alike exact s s') {before : Text}
    (hbefore : ')' ∉ before) (after : Text) (more : Nat) :
    ∃ v, Tracks exact s u s' v ∧
      foldGroups (descend setting' (levels + 1)) (t.count ')' + (more + 1))
          (before ++ '(' :: (t ++ ')' :: after)) s' =
        foldGroups (descend setting' (levels + 1)) more
          (before ++ valueText before value after ++ after)
          (v.add (.step (valueStep (foldedText setting levels t s) value))) := by
  obtain ⟨hround, hsquare, w, u₁, hfold, hw, hoperators, hu₁, rfl⟩ := parts_of_clear h hu
  have hr : ∀ extra entry t, Follows setting lost exact
      (descend setting levels entry t : Eval σ Float) (descend setting' (levels + extra) entry t) :=
    fun extra => follows_descend hv hdeep levels extra
  have hleft : timesBeside (before ++ ['(']).getLast? = [] := by
    rw [List.getLast?_concat]
    rfl
  have hright : timesBeside (')' :: after).head? = [] := rfl
  have hdeeper : Alike exact (deeper s) s' := .of_ample halike.dice halike.failed halike.shown
  -- the rounds that fold the groups of `t`
  obtain ⟨w', hcontext, htracks, hflat, hkeeps⟩ :=
    foldGroups_within hleft hright (hr 1) (stops_descend setting levels) count_square_of_clear
      (by simp [hbefore]) rfl hround hdeeper hfold hw (more + 1)
  have hw' : w'.failed = false := htracks.alike.failed.trans hw
  have heven : (foldedText setting levels t s).count '[' =
      (foldedText setting levels t s).count ']' := by omega
  obtain ⟨hempty, hsingle⟩ := single_of_operators hflat hoperators hu₁
  -- the round that evaluates what is left of it
  have hfollows := (Follows.congruence hv).operators (hr 0) (foldedText setting levels t s)
  have hinner : Alike exact w (deeper w') :=
    .of_ample htracks.alike.dice htracks.alike.failed htracks.alike.shown
  obtain ⟨u₂, hrun, htracks'⟩ := hfollows.run hinner hoperators hu₁
  have hwhole : descend setting' (levels + 1) .whole (foldedText setting levels t s) w' =
      .ok value (atDepth w'.depth u₂) := by
    rw [descend, unlessFailed_of_not_failed hw', nested_eq_ok]
    refine ⟨rfl, u₂, ?_, rfl⟩
    show groupsThenOperators setting' (descend setting' levels) _ _ = _
    have hguard : (deeper w').failed = false := hw'
    rw [groupsThenOperators, resolveGroups_of_no_group hflat.1 hflat.2 heven, pure_bind,
      unlessFailed_of_not_failed hguard]
    exact hrun
  have hback : Tracks exact w u₁ w' (atDepth w'.depth u₂) :=
    ⟨.of_ample htracks'.alike.dice htracks'.alike.failed htracks'.alike.shown, htracks'.entries⟩
  have hall := htracks.trans hback
  have hclear : (atDepth w'.depth u₂).failed = false := hall.alike.failed.trans hu₁
  refine ⟨atDepth w'.depth u₂,
    ⟨.of_ample hall.alike.dice hall.alike.failed hall.alike.shown, hall.entries⟩, ?_⟩
  have htext : ∀ x : Text, before ++ '(' :: (x ++ ')' :: after) =
      before ++ ['('] ++ x ++ ')' :: after := by simp
  have hlist : ¬1 < (splitTopLevel (· == ',') (foldedText setting levels t s)).length := by omega
  have hround' : foldGroup (descend setting' (levels + 1))
      (.between before (foldedText setting levels t s) after) (foldedText setting levels t s) w' =
        .ok (before ++ valueText before value after ++ after)
          ((atDepth w'.depth u₂).add (.step (valueStep (foldedText setting levels t s) value))) := by
    rw [foldGroup_value hempty hlist hwhole, hclear, hvalue]
    rfl
  rw [htext, hcontext, ← htext, foldGroups_succ hbefore hflat after more hw', bind_of_ok hround']

end Reckoner

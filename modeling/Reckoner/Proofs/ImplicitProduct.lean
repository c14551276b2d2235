import Reckoner.Proofs.Apart
import Reckoner.Proofs.Draws
import Reckoner.Proofs.Homomorphism

/-!
# Implicit products

Between a digit or `)` and `(`, and between `)` and a digit, a `*` may be left out. It is put in
when a group is folded next to a digit, which may be one of the value of another group, so two
runs are compared round by round: with the `*` and without it the rounds find the same groups,
and as soon as a group next to the place is folded the two texts are the same or the place is
behind its value (`foldGroups_inserted`). At such a place no group turns into a list, since no
evaluation without a problem has a list next to a number (`Derives.listsApart`).
-/

namespace Reckoner

open Eval

/-! ## Places -/

/-- Between these texts a `*` may be left out. -/
def Touches (a b : Text) : Prop :=
  ∃ c d, a.getLast? = some c ∧ b.head? = some d ∧
    (d = '(' ∧ (isDigitLike c = true ∨ c = ')') ∨ c = ')' ∧ isDigitLike d = true)

theorem Touches.congr {a a' b b' : Text} (h : Touches a b) (ha : a'.getLast? = a.getLast?)
    (hb : b'.head? = b.head?) : Touches a' b' := by
  obtain ⟨c, d, hc, hd, hcd⟩ := h
  exact ⟨c, d, ha.trans hc, hb.trans hd, hcd⟩

/-- At a place there is a round bracket. -/
theorem Touches.not_flat {a b : Text} (h : Touches a b) : ¬Flat (a ++ b) := by
  obtain ⟨c, d, hc, hd, ⟨rfl, -⟩ | ⟨rfl, -⟩⟩ := h
  · exact fun hflat => hflat.1 (List.mem_append_right a (List.mem_of_head? hd))
  · exact fun hflat => hflat.2 (List.mem_append_left b (List.mem_of_getLast? hc))

/-- A place that no `)` stands in front of is behind a digit. -/
theorem Touches.of_not_closer {a b : Text} (h : Touches a b) (ha : ')' ∉ a) :
    ∃ c, a.getLast? = some c ∧ b.head? = some '(' ∧ isDigitLike c = true := by
  obtain ⟨c, d, hc, hd, ⟨rfl, hdigit | rfl⟩ | ⟨rfl, -⟩⟩ := h
  · exact ⟨c, hc, hd, hdigit⟩
  · exact absurd (List.mem_of_getLast? hc) ha
  · exact absurd (List.mem_of_getLast? hc) ha

/-- The same text, or this with a `*` put in at a place where it may be left out. -/
inductive Inserted : Text → Text → Prop where
  | same (t : Text) : Inserted t t
  | place {a b : Text} (h : Touches a b) : Inserted (a ++ b) (a ++ '*' :: b)

/-- Where the group that a round finds is, seen from a place: behind it, at it on either side, or
in front of it. -/
inductive GroupAt (a b before inner after : Text) : Prop where
  | behind (b' : Text) (hb : b' ≠ []) (hbefore : before = a ++ b')
  | right (ha : a = before) (hb : b = '(' :: (inner ++ ')' :: after))
  | left (ha : a = before ++ '(' :: (inner ++ [')'])) (hb : b = after)
  | front (a' : Text) (ha : a' ≠ []) (hafter : after = a' ++ b)

theorem groupAt_of_eq {a b before inner after : Text} (hplace : Touches a b) (hinner : Flat inner)
    (h : a ++ b = before ++ '(' :: (inner ++ ')' :: after)) : GroupAt a b before inner after := by
  obtain ⟨c, d, hc, hd, hcd⟩ := hplace
  rcases List.append_eq_append_iff.mp h with ⟨b', hbefore, hb⟩ | ⟨a', ha, hrest⟩
  · cases b' with
    | nil => exact .right (by rw [hbefore, List.append_nil]) (by rw [hb, List.nil_append])
    | cons e b' => exact .behind (e :: b') (List.cons_ne_nil _ _) hbefore
  · cases a' with
    | nil => exact .right (by rw [ha, List.append_nil]) (by rw [hrest, List.nil_append])
    | cons e a' =>
      obtain ⟨rfl, htail⟩ := List.cons.inj hrest
      rcases List.append_eq_append_iff.mp htail with ⟨x, ha', hx⟩ | ⟨x, hx, hb⟩
      · cases x with
        | nil =>
          -- the second text would start with the closer
          rw [List.nil_append] at hx
          rw [← hx] at hd
          cases hd
          rcases hcd with ⟨hopen, -⟩ | ⟨-, hdigit⟩
          · exact absurd hopen (by decide)
          · exact absurd hdigit (by decide)
        | cons e x =>
          obtain ⟨rfl, hafter⟩ := List.cons.inj hx
          cases x with
          | nil =>
            refine .left ?_ hafter.symm
            rw [ha, ha']
          | cons e x => exact .front (e :: x) (List.cons_ne_nil _ _) hafter
      · -- the place would be inside the group
        have hopen : d ≠ '(' := by
          rintro rfl
          rw [hb] at hd
          cases x with
          | nil => cases hd
          | cons e x =>
            cases hd
            exact hinner.1 (hx ▸ List.mem_append_right a' List.mem_cons_self)
        have hclose : c ≠ ')' := by
          rintro rfl
          rw [ha, List.getLast?_append_of_ne_nil _ (List.cons_ne_nil _ _)] at hc
          have hmem := List.mem_of_getLast? hc
          rcases List.mem_cons.mp hmem with hbracket | hmem
          · exact absurd hbracket (by decide)
          · exact hinner.2 (hx ▸ List.mem_append_left x hmem)
        rcases hcd with ⟨h, -⟩ | ⟨h, -⟩
        · exact absurd h hopen
        · exact absurd h hclose

/-! ## One round -/

variable {σ : Type}

section Round

variable {recur : Recur σ} {before inner after folded : Text} {s u : Progress σ}
  (hfolded : ListsApart folded)
  (h : foldGroup recur (.between before inner after) inner s = .ok folded u)
  (hu : u.failed = false)
include hfolded h hu

/-- Behind a digit the group is folded to the same text with the `*` put in. -/
theorem foldGroup_behind_digit {c : Char} (hc : before.getLast? = some c)
    (hdigit : isDigitLike c = true) :
    foldGroup recur (.between (before ++ ['*']) inner after) inner s = .ok folded u := by
  obtain ⟨hempty, ⟨-, -, rfl, -⟩ | ⟨hlist, x, v, hrun, hv, hx, rfl, rfl⟩⟩ := foldGroup_eq_ok h hu
  · -- a list would be right behind the digit
    rw [List.append_assoc] at hfolded
    have hapart := (listsApart_append.mp hfolded).2.2 c hc '[' rfl
    rw [hapart.1 rfl] at hdigit
    cases hdigit
  · have htext : before ++ ['*'] ++ valueText (before ++ ['*']) x after =
        before ++ valueText before x after := by
      rw [valueText, valueText, List.getLast?_concat, hc]
      simp [timesBeside, hdigit, show isDigitLike '*' = false by decide]
    rw [foldGroup_value hempty hlist hrun, hv, hx, htext]
    rfl

/-- In front of a digit the group is folded to the same text with the `*` put in; in front of
another group the place is behind the value then. -/
theorem foldGroup_before {d : Char} (hd : after.head? = some d)
    (hplace : d = '(' ∨ isDigitLike d = true) :
    ∃ left, Inserted folded left ∧
      foldGroup recur (.between before inner ('*' :: after)) inner s = .ok left u := by
  obtain ⟨hempty, ⟨-, -, rfl, -⟩ | ⟨hlist, x, v, hrun, hv, hx, rfl, rfl⟩⟩ := foldGroup_eq_ok h hu
  · -- the place would be right behind a list
    have hlast : (before ++ bracketed (splitTopLevel (· == ',') inner)).getLast? = some ']' := by
      rw [bracketed, ← List.append_assoc, List.getLast?_concat]
    have hapart := ((listsApart_append.mp hfolded).2.2 ']' hlast d hd).2 rfl
    rcases hplace with rfl | hdigit
    · exact absurd (by decide) hapart.2
    · rw [hapart.1] at hdigit
      cases hdigit
  · have hstar : timesBeside (some '*') = [] := by decide
    have hround : foldGroup recur (.between before inner ('*' :: after)) inner s =
        .ok (before ++ valueText before x ('*' :: after) ++ '*' :: after)
          (v.add (.step (valueStep inner x))) := by
      rw [foldGroup_value hempty hlist hrun, hv, hx]
      rfl
    refine ⟨_, ?_, hround⟩
    by_cases hdigit : isDigitLike d = true
    · have htext : before ++ valueText before x ('*' :: after) ++ '*' :: after =
          before ++ valueText before x after ++ after := by
        rw [valueText, valueText, List.head?_cons, hstar, hd]
        simp [timesBeside, hdigit]
      rw [htext]
      exact .same _
    · have hright : timesBeside after.head? = [] := by simp [timesBeside, hd, hdigit]
      have htext : valueText before x ('*' :: after) = valueText before x after := by
        rw [valueText, valueText, List.head?_cons, hstar, hright]
      obtain ⟨c, hc, hdecimal⟩ := exists_last_literalText hx
      have hlast : (before ++ valueText before x after).getLast? = some c := by
        have hne : literalText x ≠ [] := by
          intro hnil
          rw [hnil] at hc
          cases hc
        rw [valueText, hright, List.append_nil, ← List.append_assoc,
          List.getLast?_append_of_ne_nil _ hne, hc]
      have hlike : isDigitLike c = true := by rw [isDigitLike, hdecimal, Bool.true_or]
      rw [htext]
      exact .place ⟨c, d, hlast, hd, .inl ⟨hplace.resolve_right hdigit, .inl hlike⟩⟩

/-- **One round.** The group that is found is found with the `*`, too, and is folded to the same
text, maybe with a `*` put in. -/
theorem foldGroup_inserted {a b : Text} (hplace : Touches a b) (hbefore : ')' ∉ before)
    (hinner : Flat inner) (htext : a ++ b = before ++ '(' :: (inner ++ ')' :: after)) :
    ∃ before' after' left, a ++ '*' :: b = before' ++ '(' :: (inner ++ ')' :: after') ∧
      ')' ∉ before' ∧ Inserted folded left ∧
      foldGroup recur (.between before' inner after') inner s = .ok left u := by
  cases groupAt_of_eq hplace hinner htext with
  | behind b' hne hb =>
    subst hb
    have hbtext : b = b' ++ '(' :: (inner ++ ')' :: after) := by
      rw [List.append_assoc] at htext
      exact List.append_cancel_left htext
    have hlast : (a ++ '*' :: b').getLast? = (a ++ b').getLast? := by
      rw [List.getLast?_append_of_ne_nil _ (List.cons_ne_nil _ _),
        List.getLast?_append_of_ne_nil _ hne, ← List.singleton_append,
        List.getLast?_append_of_ne_nil _ hne]
    obtain ⟨mid, rfl, -, hround⟩ := foldGroup_beside hinner hlast rfl h hu
    have hhead : (b' ++ mid ++ after).head? = b.head? := by
      obtain ⟨d, rest, rfl⟩ := List.exists_cons_of_ne_nil hne
      rw [hbtext]
      rfl
    refine ⟨a ++ '*' :: b', after, _, by simp [hbtext], by simpa using hbefore, ?_, hround⟩
    simpa using Inserted.place (hplace.congr rfl hhead)
  | right ha hb =>
    subst ha
    obtain ⟨c, hc, -, hdigit⟩ := hplace.of_not_closer hbefore
    exact ⟨a ++ ['*'], after, folded, by simp [hb], by simpa using hbefore, .same folded,
      foldGroup_behind_digit hfolded h hu hc hdigit⟩
  | left ha hb =>
    subst ha hb
    obtain ⟨c, d, -, hd, hcd⟩ := hplace
    obtain ⟨left, hleft, hround⟩ :=
      foldGroup_before hfolded h hu hd (hcd.imp And.left And.right)
    exact ⟨before, '*' :: b, left, by simp, hbefore, hleft, hround⟩
  | front a' hne hafter =>
    subst hafter
    have ha : a = before ++ '(' :: (inner ++ [')']) ++ a' := by
      have hwith : a ++ b = before ++ '(' :: (inner ++ [')']) ++ a' ++ b := by simpa using htext
      exact List.append_cancel_right hwith
    have hhead : (a' ++ '*' :: b).head? = (a' ++ b).head? := by
      obtain ⟨d, rest, rfl⟩ := List.exists_cons_of_ne_nil hne
      rfl
    obtain ⟨mid, rfl, -, hround⟩ := foldGroup_beside hinner rfl hhead h hu
    have hlast : (before ++ mid ++ a').getLast? = a.getLast? := by
      rw [ha, List.getLast?_append_of_ne_nil _ hne, List.getLast?_append_of_ne_nil _ hne]
    refine ⟨before, a' ++ '*' :: b, _, by simp [ha], hbefore, ?_, hround⟩
    simpa using Inserted.place (hplace.congr hlast rfl)

end Round

/-! ## All rounds -/

/-- Folding that succeeds ends in a text whose folds are derived. -/
theorem exists_folds_of_foldGroups {setting : Setting σ} {levels rounds : Nat} {t flat : Text}
    (hclose : t.count ')' = rounds) (hopen : t.count '(' = rounds) {s u : Progress σ}
    (h : foldGroups (descend setting levels) rounds t s = .ok flat u) (hu : u.failed = false) :
    ∃ es ns, Derives (.folds t flat) es ns :=
  exists_derives_of_projects
    ((Projects.congruence .ample
      (setting.carries_alongside (id : List Float → List Float))).foldGroups
        (projects_descendKeeping setting levels) rounds t)
    (yields_foldGroups (stops_descendKeeping setting levels) (yields_descendKeeping setting levels)
      hclose hopen) h hu

/-- **The rounds agree.** With a `*` where it may be left out the groups of a text fold to the
same text as without it, and with the same entries, if the lists of that text are apart. -/
theorem foldGroups_inserted {setting : Setting σ} {levels rounds : Nat} {t t' flat : Text}
    (hinserted : Inserted t t') (hclose : t.count ')' = rounds) (hopen : t.count '(' = rounds)
    (hflat : ListsApart flat) {s u : Progress σ}
    (h : foldGroups (descend setting levels) rounds t s = .ok flat u) (hu : u.failed = false) :
    foldGroups (descend setting levels) rounds t' s = .ok flat u := by
  induction rounds generalizing t t' s with
  | zero =>
    cases hinserted with
    | same => exact h
    | place hplace =>
      exact absurd ⟨List.count_eq_zero.mp hopen, List.count_eq_zero.mp hclose⟩ hplace.not_flat
  | succ rounds ih =>
    cases hinserted with
    | same => exact h
    | @place a b hplace =>
      have hmem : ')' ∈ a ++ b := List.count_pos_iff.mp (by omega)
      obtain ⟨hs, before, inner, after, folded, v, htext, hbefore, hinner, hfirst, hv, hrest⟩ :=
        exists_first_round (stops_descend setting levels) hmem h hu
      obtain ⟨mid, rfl, hmid, -⟩ := foldGroup_beside hinner rfl rfl hfirst hv
      obtain ⟨hclose', hopen'⟩ :=
        count_folded hinner hmid (htext ▸ hclose) (htext ▸ hopen)
      -- the lists of what the round leaves are apart, as those of what is left at the end are
      obtain ⟨es, ns, hfolds⟩ := exists_folds_of_foldGroups hclose' hopen' hrest hu
      obtain ⟨before', after', left, htext', hbefore', hleft, hfirst'⟩ :=
        foldGroup_inserted (hfolds.listsApart hflat) hfirst hv hplace hbefore hinner htext
      rw [htext', foldGroups_succ hbefore' hinner _ _ hs, bind_of_ok hfirst']
      exact ih hleft hclose' hopen' hrest

/-! ## Expressions -/

theorem isBlank_of_isDigitLike {c : Char} (h : isDigitLike c = true) : isBlank c = false := by
  rcases isDigitLike_cases h with hdigit | ⟨range, hrange, hlow, hhigh⟩
  · exact isBlank_of_isDecimalDigit hdigit
  · have hall : ∀ range ∈ digitLikeRanges, 0xa0 < range.1 ∧
        (0x1680 < range.1 ∨ range.2 < 0x1680) ∧ (0x200a < range.1 ∨ range.2 < 0x2000) ∧
        (0x205f < range.1 ∨ range.2 < 0x2028) ∧ (0x3000 < range.1 ∨ range.2 < 0x3000) := by decide
    have hnumber := hall range hrange
    simp [isBlank]
    omega

theorem withoutBlanks_times (a b : Text) :
    (a ++ '*' :: b).withoutBlanks = a.withoutBlanks ++ '*' :: b.withoutBlanks := by
  rw [withoutBlanks_append, Text.withoutBlanks, Text.withoutBlanks,
    List.filter_cons_of_pos (by decide)]
  rfl

/-- A place is still there when the blanks of both texts are gone. -/
theorem Touches.withoutBlanks {a b : Text} (h : Touches a b) :
    Touches a.withoutBlanks b.withoutBlanks := by
  obtain ⟨c, d, hc, hd, hcd⟩ := h
  obtain ⟨a, rfl⟩ := List.getLast?_eq_some_iff.mp hc
  obtain ⟨b, rfl⟩ := List.head?_eq_some_iff.mp hd
  have hopen : isBlank '(' = false := by decide
  have hclose : isBlank ')' = false := by decide
  have hblank : isBlank c = false ∧ isBlank d = false := by
    rcases hcd with ⟨rfl, hdigit | rfl⟩ | ⟨rfl, hdigit⟩
    · exact ⟨isBlank_of_isDigitLike hdigit, hopen⟩
    · exact ⟨hclose, hopen⟩
    · exact ⟨hclose, isBlank_of_isDigitLike hdigit⟩
  refine ⟨c, d, ?_, ?_, hcd⟩
  · simp [Text.withoutBlanks, hblank.1]
  · simp [Text.withoutBlanks, hblank.2]

/-- What is left of a text that is evaluated without a problem has its lists apart. -/
theorem listsApart_of_operators {setting : Setting σ} {levels : Nat} {flat : Text} {x : Float}
    {s u : Progress σ} (h : operators setting (descend setting levels) flat s = .ok x u)
    (hu : u.failed = false) : ListsApart flat := by
  have hprojects := (Projects.congruence .ample
    (setting.carries_alongside (id : List Float → List Float))).operators
      (projects_descendKeeping setting levels) flat
  obtain ⟨es, ns, hderives⟩ := exists_derives_of_projects hprojects
    (yields_operators (stops_descendKeeping setting levels)
      (yields_descendKeeping setting levels) flat) h hu
  exact hderives.listsApart

/-- With a `*` where it may be left out an expression is evaluated in the same way. -/
theorem evaluateExpression_times {setting : Setting σ} {a b : Text} {dice after : σ}
    {e : Evaluation} (hplace : Touches a.withoutBlanks b.withoutBlanks)
    (h : evaluateExpression setting dice (a ++ b) = .ok (e, after)) (he : e.failed = false)
    (hlength : ((a ++ '*' :: b).withoutBlanks.length : Int) ≤ setting.limits.maxLength) :
    evaluateExpression setting dice (a ++ '*' :: b) =
      .ok ({ e with expression := a ++ '*' :: b }, after) := by
  obtain ⟨levels, u, hlevels, hrun, hu, hfinite, hledger, hafter⟩ := exists_run_of_success h he
  obtain ⟨hround, hsquare, w, v, hfold, hw, hoperators, hv, rfl⟩ := parts_of_clear hrun hu
  rw [withoutBlanks_append] at hround hsquare hfold hoperators
  have hnew := withoutBlanks_times a b
  have hcount : ∀ {c : Char}, c ≠ '*' →
      (a ++ '*' :: b).withoutBlanks.count c = (a.withoutBlanks ++ b.withoutBlanks).count c := by
    intro c hc
    rw [hnew, List.count_append, List.count_cons_of_ne hc.symm, List.count_append]
  have hround' : (a ++ '*' :: b).withoutBlanks.count '(' =
      (a ++ '*' :: b).withoutBlanks.count ')' := by
    rw [hcount (by decide), hcount (by decide), hround]
  have hsquare' : (a ++ '*' :: b).withoutBlanks.count '[' =
      (a ++ '*' :: b).withoutBlanks.count ']' := by
    rw [hcount (by decide), hcount (by decide), hsquare]
  have hne : (a ++ '*' :: b).withoutBlanks ≠ [] := by simp [hnew]
  have hinserted := foldGroups_inserted (.place hplace) rfl hround
    (listsApart_of_operators hoperators hv) hfold hw
  rw [← hnew, ← hcount (by decide)] at hinserted
  have hjudged : (!v.failed && !e.value.isFinite) = false := by
    rw [hfinite, Bool.not_true, Bool.and_false]
  rw [evaluateExpression_of_folded hne hlength hlevels hround' hsquare' hinserted hw, hoperators]
  dsimp only
  rw [hjudged, if_neg Bool.false_ne_true]
  have hledger' : v.ledger = e.ledger := hledger
  have hafter' : v.dice = after := hafter
  rw [hledger', hafter']

/-- So it is on a stack, since it takes no more levels. -/
theorem evaluateExpression_inserted {stack : Stack} {setting : Setting σ} {a b : Text}
    {dice after : σ} {e : Evaluation} (hplace : Touches a.withoutBlanks b.withoutBlanks)
    (h : evaluateExpression setting dice (a ++ b) stack = .ok (e, after)) (he : e.failed = false)
    (hlength : ((a ++ '*' :: b).withoutBlanks.length : Int) ≤ setting.limits.maxLength) :
    evaluateExpression setting dice (a ++ '*' :: b) stack =
      .ok ({ e with expression := a ++ '*' :: b }, after) :=
  success_of_withDepth h he
    (evaluateExpression_times hplace (success_withDepth h he (le_refl _)) he hlength) he

/-- **Implicit products.** Wherever a digit or `)` is followed by `(`, or `)` by a digit, a `*`
can be put in: the value, the entries and the draws of an expression that is evaluated without
a problem stay the same. -/
theorem evaluateExpression_implicitProduct {stack : Stack} {setting : Setting σ} {a b : Text}
    {dice after : σ} {e : Evaluation} (hplace : Touches a b)
    (h : evaluateExpression setting dice (a ++ b) stack = .ok (e, after)) (he : e.failed = false)
    (hlength : ((a ++ '*' :: b).withoutBlanks.length : Int) ≤ setting.limits.maxLength) :
    evaluateExpression setting dice (a ++ '*' :: b) stack =
        .ok ({ e with expression := a ++ '*' :: b }, after) ∧
      draws setting dice (a ++ '*' :: b) stack = draws setting dice (a ++ b) stack := by
  have hinserted := evaluateExpression_inserted hplace.withoutBlanks h he hlength
  have hrecording : evaluateExpression setting.recording (dice, []) (a ++ '*' :: b) stack =
      .ok ({ e with expression := a ++ '*' :: b }, after, draws setting dice (a ++ b) stack) :=
    evaluateExpression_inserted hplace.withoutBlanks (evaluateExpression_recording h) he hlength
  exact ⟨hinserted, draws_eq_of_recording hinserted hrecording⟩

/-- The first group is a number already when the second one is found. -/
theorem evaluateExpression_implicitProduct_groups :
    Touches ['(', '1', 'd', '6', ')'] ['(', '2', ')'] ∧
      ∃ e, evaluateExpression usual .high ['(', '1', 'd', '6', ')', '(', '2', ')'] =
          .ok (e, .high) ∧ e.failed = false ∧ e.value = 12.0 ∧
        evaluateExpression usual .high ['(', '1', 'd', '6', ')', '*', '(', '2', ')'] =
          .ok ({ e with expression := ['(', '1', 'd', '6', ')', '*', '(', '2', ')'] }, .high) ∧
        draws usual .high ['(', '1', 'd', '6', ')', '*', '(', '2', ')'] = [(6, 6)] := by
  have hplace : Touches ['(', '1', 'd', '6', ')'] ['(', '2', ')'] :=
    ⟨')', '(', rfl, rfl, .inl ⟨rfl, .inr rfl⟩⟩
  have h : evaluateExpression usual .high
      (['(', '1', 'd', '6', ')'] ++ ['(', '2', ')']) =
        .ok ({ expression := ['(', '1', 'd', '6', ')', '(', '2', ')']
               value := 12.0
               ledger :=
                { events := [.roll (.rolled 1 6 [6] false 6),
                    .step (.binary 1.0 'd' 6.0 6.0 ['1', 'd', '6']),
                    .step (.groupValue ['(', '1', 'd', '6', ')'] 6.0),
                    .step (.groupValue ['(', '2', ')'] 2.0),
                    .step (.binary 6.0 '*' 2.0 12.0 ['6', '.', '0', '*', '2', '.', '0'])]
                  shown := 1 } }, .high) := by decide +kernel
  obtain ⟨hinserted, hdraws⟩ :=
    evaluateExpression_implicitProduct hplace h (by decide +kernel) (by decide +kernel)
  exact ⟨hplace, _, h, by decide +kernel, rfl, hinserted, hdraws.trans (by decide +kernel)⟩

end Reckoner

import Reckoner.Proofs.Operand

/-!
# One round of group folding

A round finds the first `)` and the last `(` before it. What is between them has no round
brackets of its own, and everything around them stays as it is. A round that succeeds either
turns the group into a bracketed list or puts a finite value in its place
(`foldGroup_eq_ok`).
-/

namespace Reckoner

namespace Eval

variable {σ : Type} {recur : Recur σ} {s u : Progress σ}

/-! ## A round -/

theorem foldGroups_succ {before inner : Text} (hbefore : ')' ∉ before) (hinner : Flat inner)
    (after : Text) (rounds : Nat) (hs : s.failed = false) :
    foldGroups recur (rounds + 1) (before ++ '(' :: (inner ++ ')' :: after)) s =
      (foldGroup recur (.between before inner after) inner >>= foldGroups recur rounds) s := by
  have hhead : ')' ∉ before ++ '(' :: inner := by
    simp [hbefore, hinner.2]
  have htext : before ++ '(' :: (inner ++ ')' :: after) = (before ++ '(' :: inner) ++ ')' :: after := by
    simp
  rw [foldGroups, failed_bind, hs, if_neg Bool.false_ne_true, htext, splitAtCloser_append hhead]
  dsimp only
  rw [splitAtLastOpener_append before hinner.1]

/-- What the folding does next: nothing at all, or it finds a closer without its opener, or it
folds the innermost group. -/
theorem foldGroups_cases (recur : Recur σ) (t : Text) (s : Progress σ) :
    (s.failed = true ∨ ')' ∉ t) ∨
      (∀ rounds, foldGroups recur (rounds + 1) t s =
        .ok t (s.add (.problem (.unbalancedParentheses t)))) ∨
      ∃ before inner after, t = before ++ '(' :: (inner ++ ')' :: after) ∧ ')' ∉ before ∧
        Flat inner ∧ ∀ rounds, foldGroups recur (rounds + 1) t s =
          (foldGroup recur (.between before inner after) inner >>= foldGroups recur rounds) s := by
  by_cases hs : s.failed = true
  · exact .inl (.inl hs)
  by_cases ht : ')' ∈ t
  · right
    rw [Bool.not_eq_true] at hs
    obtain ⟨head, after, rfl, hhead⟩ := exists_eq_append_closer ht
    by_cases hopen : '(' ∈ head
    · obtain ⟨before, inner, rfl, hinner⟩ := exists_eq_append_opener hopen
      simp only [List.mem_append, List.mem_cons, not_or] at hhead
      refine .inr ⟨before, inner, after, by simp, hhead.1, ⟨hinner, hhead.2.2⟩, fun rounds => ?_⟩
      rw [← foldGroups_succ hhead.1 ⟨hinner, hhead.2.2⟩ after rounds hs]
      simp
    · refine .inl fun rounds => ?_
      rw [foldGroups, failed_bind, hs, if_neg Bool.false_ne_true, splitAtCloser_append hhead]
      dsimp only
      rw [splitAtLastOpener_of_not_mem hopen]
      rfl
  · exact .inl (.inr ht)

/-- A round that succeeds has found a group. -/
theorem exists_group_of_foldGroups {rounds : Nat} {t flat : Text} (hs : s.failed = false)
    (ht : ')' ∈ t) (h : foldGroups recur (rounds + 1) t s = .ok flat u) (hu : u.failed = false) :
    ∃ before inner after, t = before ++ '(' :: (inner ++ ')' :: after) ∧ ')' ∉ before ∧
      Flat inner ∧
      (foldGroup recur (.between before inner after) inner >>= foldGroups recur rounds) s =
        .ok flat u := by
  obtain (hfailed | hnone) | hunopened | ⟨before, inner, after, rfl, hbefore, hinner, hround⟩ :=
    foldGroups_cases recur t s
  · rw [hs] at hfailed
    cases hfailed
  · exact absurd ht hnone
  · rw [hunopened] at h
    cases h
    rw [Progress.failed_add_problem] at hu
    cases hu
  · exact ⟨before, inner, after, rfl, hbefore, hinner, (hround rounds).symm.trans h⟩

/-- Rounds that succeed are the first one, which folds a group, and the others on what it leaves. -/
theorem exists_first_round (hstops : ∀ entry t, Stops IsOne (recur entry t)) {rounds : Nat}
    {t flat : Text} (ht : ')' ∈ t) (h : foldGroups recur (rounds + 1) t s = .ok flat u)
    (hu : u.failed = false) :
    s.failed = false ∧ ∃ before inner after folded v,
      t = before ++ '(' :: (inner ++ ')' :: after) ∧ ')' ∉ before ∧ Flat inner ∧
        foldGroup recur (.between before inner after) inner s = .ok folded v ∧
        v.failed = false ∧ foldGroups recur rounds folded v = .ok flat u := by
  have hs : s.failed = false := (stops_foldGroups hstops _ t).clear h hu
  obtain ⟨before, inner, after, htext, hbefore, hinner, hround⟩ :=
    exists_group_of_foldGroups hs ht h hu
  obtain ⟨folded, v, hfirst, hrest⟩ := bind_eq_ok.mp hround
  have hv : v.failed = false := (stops_foldGroups hstops _ folded).clear hrest hu
  exact ⟨hs, before, inner, after, folded, v, htext, hbefore, hinner, hfirst, hv, hrest⟩

/-! ## The ways a round ends -/

/-- The step that a list of arguments notes. -/
def listStep (inner : Text) : Step :=
  .argumentList ('(' :: inner ++ [')']) (bracketed (splitTopLevel (· == ',') inner))

/-- The step that the value of a group notes. -/
def valueStep (inner : Text) (value : Float) : Step := .groupValue ('(' :: inner ++ [')']) value

/-- A group with a comma becomes a list, wherever it stands. -/
theorem foldGroup_list {site : Site} {inner : Text} (hempty : inner ≠ [])
    (hlist : 1 < (splitTopLevel (· == ',') inner).length)
    (hparts : (splitTopLevel (· == ',') inner).any List.isEmpty = false) :
    foldGroup recur site inner s =
      .ok (site.replaced (bracketed (splitTopLevel (· == ',') inner)))
        (s.add (.step (listStep inner))) := by
  rw [foldGroup, if_neg (by simpa using hempty), if_pos hlist, hparts]
  rfl

/-- A group without a comma is evaluated. -/
theorem foldGroup_value {before inner after : Text} (hempty : inner ≠ [])
    (hlist : ¬1 < (splitTopLevel (· == ',') inner).length) {v : Progress σ} {value : Float}
    (h : recur .whole inner s = .ok value v) :
    (foldGroup recur (.between before inner after) inner) s =
      if v.failed then .ok (Site.between before inner after).whole v
      else if !value.isFinite then
        .ok (Site.between before inner after).whole
          (v.add (.problem (.tooLarge ('(' :: inner ++ [')']))))
      else .ok (before ++ valueText before value after ++ after)
        (v.add (.step (valueStep inner value))) := by
  rw [foldGroup, if_neg (by simpa using hempty), if_neg hlist, bind_of_ok h, failed_bind]
  cases v.failed with
  | true => rfl
  | false =>
    cases value.isFinite with
    | true => rfl
    | false => rfl

/-- What is refused at a place ends with a problem. -/
theorem refuseAt_ne_ok {site : Site} {p : Problem} {folded : Text} (hu : u.failed = false) :
    refuseAt site p s ≠ .ok folded u := by
  have hrun : refuseAt site p s = .ok site.whole (s.add (.problem p)) := rfl
  intro h
  rw [hrun] at h
  cases h
  rw [Progress.failed_add_problem] at hu
  cases hu

/-- Writing a value down does nothing else than note it. -/
theorem insertValue_eq_ok {site : Site} {fragment folded : Text} {value : Float}
    (h : insertValue site fragment value s = .ok folded u) :
    ∃ left right, site.leftNeighbour = .ok left ∧ site.rightNeighbour = .ok right ∧
      folded = site.replaced (timesBeside left ++ literalText value ++ timesBeside right) ∧
      u = s.add (.step (.groupValue fragment value)) := by
  unfold insertValue at h
  obtain ⟨left, w, hleft, h⟩ := bind_eq_ok.mp h
  obtain ⟨right, w', hright, h⟩ := bind_eq_ok.mp h
  cases hl : site.leftNeighbour with
  | error fault => rw [hl] at hleft; cases hleft
  | ok c =>
    rw [hl] at hleft
    cases hleft
    cases hr : site.rightNeighbour with
    | error fault => rw [hr] at hright; cases hright
    | ok d =>
      rw [hr] at hright
      cases hright
      rw [note_bind] at h
      cases h
      exact ⟨left, right, rfl, rfl, rfl, rfl⟩

/-- **A value put in the place of a group.** Wherever the group stands, it was evaluated without
a problem to a finite value, and there was no fault in looking for its neighbours. -/
theorem foldGroup_value_eq_ok {site : Site} {inner folded : Text}
    (h : foldGroup recur site inner s = .ok folded u) (hu : u.failed = false)
    (hlist : ¬1 < (splitTopLevel (· == ',') inner).length) :
    inner ≠ [] ∧ ∃ value v left right, recur .whole inner s = .ok value v ∧ v.failed = false ∧
      value.isFinite = true ∧ site.leftNeighbour = .ok left ∧ site.rightNeighbour = .ok right ∧
      folded = site.replaced (timesBeside left ++ literalText value ++ timesBeside right) ∧
      u = v.add (.step (valueStep inner value)) := by
  unfold foldGroup at h
  dsimp only at h
  split_ifs at h with hempty
  · exact absurd h (refuseAt_ne_ok hu)
  · refine ⟨fun hnil => hempty (List.isEmpty_iff.mpr hnil), ?_⟩
    obtain ⟨value, v, hvalue, h⟩ := bind_eq_ok.mp h
    rw [failed_bind] at h
    split_ifs at h with hv hfinite
    · cases h
      rw [hv] at hu
      cases hu
    · exact absurd h (refuseAt_ne_ok hu)
    · obtain ⟨left, right, hleft, hright, hfolded, hnoted⟩ := insertValue_eq_ok h
      exact ⟨value, v, left, right, hvalue, by simpa using hv, by simpa using hfinite, hleft,
        hright, hfolded, hnoted⟩

/-- **A round that succeeds.** The group was not empty; it became a list of nonempty
arguments, or it was evaluated without a problem to a finite value. -/
theorem foldGroup_eq_ok {before inner after folded : Text}
    (h : foldGroup recur (.between before inner after) inner s = .ok folded u)
    (hu : u.failed = false) :
    inner ≠ [] ∧
      ((1 < (splitTopLevel (· == ',') inner).length ∧
          (splitTopLevel (· == ',') inner).any List.isEmpty = false ∧
          folded = before ++ bracketed (splitTopLevel (· == ',') inner) ++ after ∧
          u = s.add (.step (listStep inner))) ∨
        (¬1 < (splitTopLevel (· == ',') inner).length ∧
          ∃ value v, recur .whole inner s = .ok value v ∧ v.failed = false ∧
            value.isFinite = true ∧ folded = before ++ valueText before value after ++ after ∧
            u = v.add (.step (valueStep inner value)))) := by
  by_cases hlist : 1 < (splitTopLevel (· == ',') inner).length
  · by_cases hempty : inner = []
    · rw [foldGroup, if_pos (by simpa using hempty)] at h
      exact absurd h (refuseAt_ne_ok hu)
    refine ⟨hempty, .inl ?_⟩
    cases hparts : (splitTopLevel (· == ',') inner).any List.isEmpty with
    | true =>
      rw [foldGroup, if_neg (by simpa using hempty), if_pos hlist, hparts, if_pos rfl] at h
      exact absurd h (refuseAt_ne_ok hu)
    | false =>
      rw [foldGroup_list hempty hlist hparts] at h
      cases h
      exact ⟨hlist, rfl, rfl, rfl⟩
  · obtain ⟨hempty, value, v, left, right, hvalue, hv, hfinite, hleft, hright, hfolded, hu⟩ :=
      foldGroup_value_eq_ok h hu hlist
    cases hleft
    cases hright
    exact ⟨hempty, .inr ⟨hlist, value, v, hvalue, hv, hfinite, hfolded, hu⟩⟩

/-! ## Brackets of the new text -/

theorem count_bracketed {inner : Text} {c : Char} (hcomma : c ≠ ',') (hsemicolon : c ≠ ';') :
    (bracketed (splitTopLevel (· == ',') inner)).count c =
      [ '[' ].count c + inner.count c + [ ']' ].count c := by
  have hjoin : (Text.join [';'] (splitTopLevelFrom (· == ',') 0 inner)).count c = inner.count c :=
    (reseparated_join (· == ',') ';' 0 inner).count_eq (beq_false_of_ne hcomma) hsemicolon
  rw [bracketed, List.cons_append, ← List.singleton_append, List.count_append, List.count_append,
    splitTopLevel, hjoin, Nat.add_assoc]

theorem flat_bracketed {inner : Text} (h : Flat inner) :
    Flat (bracketed (splitTopLevel (· == ',') inner)) := by
  constructor
  · rw [← List.count_eq_zero, count_bracketed (by decide) (by decide),
      List.count_eq_zero_of_not_mem h.1]
    rfl
  · rw [← List.count_eq_zero, count_bracketed (by decide) (by decide),
      List.count_eq_zero_of_not_mem h.2]
    rfl

/-- A value is written as a number, with at most a `*` on either side. -/
theorem eq_or_isNumberChar_of_mem_valueText {before after : Text} {value : Float}
    (hvalue : value.isFinite = true) :
    ∀ c ∈ valueText before value after, c = '*' ∨ IsNumberChar c := by
  have htimes : ∀ {neighbour : Option Char}, ∀ c ∈ timesBeside neighbour, c = '*' := by
    intro neighbour c hc
    unfold timesBeside at hc
    split_ifs at hc
    · exact List.mem_singleton.mp hc
    · cases hc
  intro c hc
  rcases List.mem_append.mp hc with hc | hc
  · rcases List.mem_append.mp hc with hc | hc
    · exact .inl (htimes c hc)
    · exact .inr (isNumberChar_of_mem_literalText hvalue c hc)
  · exact .inl (htimes c hc)

theorem isBracket_of_mem_valueText {before after : Text} {value : Float}
    (hvalue : value.isFinite = true) : ∀ c ∈ valueText before value after, isBracket c = false := by
  intro c hc
  rcases eq_or_isNumberChar_of_mem_valueText hvalue c hc with rfl | hnumber
  · rfl
  · exact isBracket_of_isNumberChar hnumber

theorem flat_valueText (before after : Text) {value : Float} (hvalue : value.isFinite = true) :
    Flat (valueText before value after) := by
  constructor <;> intro hmem <;> cases isBracket_of_mem_valueText hvalue _ hmem

/-- A round of folding brings in no characters but those of lists, of products and of numbers. -/
theorem Folded.mem {t t' : Text} (h : Folded t t') :
    ∀ c ∈ t', c ∈ t ∨ c ∈ ['[', ';', ']', '*'] ∨ IsNumberChar c := by
  have houtside : ∀ {before inner after mid : Text} {c : Char}, c ∈ before ++ mid ++ after →
      c ∈ before ++ '(' :: (inner ++ ')' :: after) ∨ c ∈ mid := by
    intro before inner after mid c hc
    simp only [List.mem_append, List.mem_cons] at hc ⊢
    tauto
  intro c hc
  cases h with
  | listed before inner after =>
    refine (houtside hc).elim .inl fun hc => ?_
    simp only [bracketed, List.mem_append, List.mem_cons, List.not_mem_nil, or_false] at hc
    rcases hc with (rfl | hc) | rfl
    · exact .inr (.inl (by decide))
    · rcases mem_of_mem_join hc with hc | ⟨part, hpart, hc⟩
      · rw [List.mem_singleton.mp hc]
        exact .inr (.inl (by decide))
      · have hinner := mem_of_mem_splitTopLevelFrom hpart hc
        exact .inl ((part_of_group before inner after).inside.subset hinner)
    · exact .inr (.inl (by decide))
  | valued before inner after hx =>
    refine (houtside hc).imp id fun hc => ?_
    rcases eq_or_isNumberChar_of_mem_valueText hx c hc with rfl | hnumber
    · exact .inl (by decide)
    · exact .inr hnumber

/-- A bracketed list has its brackets at its ends. -/
theorem exists_body_of_bracketedList {argument : Text} {pieces : List Text}
    (h : bracketedList? argument = some pieces) :
    ∃ body, argument = '[' :: (body ++ [']']) ∧ closingBracket argument = some (body.length + 1) ∧
      pieces = splitTopLevel (· == ';') body := by
  unfold bracketedList? at h
  split_ifs at h with hbrackets
  cases h
  rw [Bool.and_eq_true, beq_iff_eq, beq_iff_eq] at hbrackets
  obtain ⟨hopen, hclose⟩ := hbrackets
  obtain ⟨-, hlast⟩ := getElem?_of_closingBracketFrom hclose
  cases argument with
  | nil => cases hopen
  | cons d rest =>
    cases hopen
    rw [List.length_cons, Nat.add_sub_cancel, Nat.sub_zero] at hlast
    rcases List.eq_nil_or_concat rest with rfl | ⟨body, c, rfl⟩
    · cases hlast
    · rw [List.concat_eq_append, List.length_append, List.length_singleton,
        List.getElem?_cons_succ, List.getElem?_concat_length] at hlast
      cases hlast
      rw [List.concat_eq_append] at hclose ⊢
      refine ⟨body, rfl, by simpa using hclose, ?_⟩
      rw [List.drop_succ_cons, List.drop_zero, List.dropLast_concat]

/-- The text of a list is that of its arguments. -/
theorem eq_bracketed_of_bracketedList {argument : Text} {pieces : List Text}
    (h : bracketedList? argument = some pieces) : argument = bracketed pieces := by
  obtain ⟨body, rfl, -, rfl⟩ := exists_body_of_bracketedList h
  rw [bracketed, splitTopLevel, (reseparated_join (· == ';') ';' 0 body).eq]
  rfl

/-- A round takes one group out of the text, keeps what is around it, and keeps the square
brackets even if they are in every group that is evaluated. -/
theorem foldGroup_keeps
    (hsquare : ∀ {t s a u}, recur .whole t s = .ok a u → u.failed = false →
      t.count '[' = t.count ']')
    {before inner after folded : Text} (hinner : Flat inner)
    (h : foldGroup recur (.between before inner after) inner s = .ok folded u)
    (hu : u.failed = false) :
    ∃ mid, folded = before ++ mid ++ after ∧ Flat mid ∧
      mid.count '[' + inner.count ']' = mid.count ']' + inner.count '[' := by
  obtain ⟨-, ⟨-, -, rfl, -⟩ | ⟨-, value, v, hrun, hv, hvalue, rfl, -⟩⟩ := foldGroup_eq_ok h hu
  · refine ⟨_, rfl, flat_bracketed hinner, ?_⟩
    rw [count_bracketed (by decide) (by decide), count_bracketed (by decide) (by decide)]
    simp
    omega
  · have hnot : ∀ c, isBracket c = true → c ∉ valueText before value after := by
      intro c hc hm
      rw [isBracket_of_mem_valueText hvalue c hm] at hc
      cases hc
    refine ⟨_, rfl, ⟨hnot _ rfl, hnot _ rfl⟩, ?_⟩
    rw [List.count_eq_zero_of_not_mem (hnot '[' rfl), List.count_eq_zero_of_not_mem (hnot ']' rfl),
      hsquare hrun hv]

/-- A round takes one opener and one closer out of the text. -/
theorem count_group {before inner mid after : Text} (hinner : Flat inner) (hmid : Flat mid)
    {c : Char} (hc : c = '(' ∨ c = ')') :
    (before ++ '(' :: (inner ++ ')' :: after)).count c = (before ++ mid ++ after).count c + 1 := by
  rcases hc with rfl | rfl
  · simp [List.count_append, List.count_eq_zero_of_not_mem hinner.1,
      List.count_eq_zero_of_not_mem hmid.1]
    omega
  · simp [List.count_append, List.count_eq_zero_of_not_mem hinner.2,
      List.count_eq_zero_of_not_mem hmid.2]
    omega

/-- Where as many rounds are due as there are brackets of either kind, so it is after a round. -/
theorem count_folded {before inner mid after : Text} {rounds : Nat} (hinner : Flat inner)
    (hmid : Flat mid)
    (hclose : (before ++ '(' :: (inner ++ ')' :: after)).count ')' = rounds + 1)
    (hopen : (before ++ '(' :: (inner ++ ')' :: after)).count '(' = rounds + 1) :
    (before ++ mid ++ after).count ')' = rounds ∧ (before ++ mid ++ after).count '(' = rounds := by
  rw [count_group hinner hmid (.inr rfl)] at hclose
  rw [count_group hinner hmid (.inl rfl)] at hopen
  exact ⟨Nat.succ.inj hclose, Nat.succ.inj hopen⟩

/-- **A round depends on neighbours only.** It does the same, and puts the same in the place of
the group, wherever the characters next to the group are the same. -/
theorem foldGroup_beside {before before' inner after after' folded : Text} (hinner : Flat inner)
    (hlast : before'.getLast? = before.getLast?) (hhead : after'.head? = after.head?)
    (h : foldGroup recur (.between before inner after) inner s = .ok folded u)
    (hu : u.failed = false) :
    ∃ mid, folded = before ++ mid ++ after ∧ Flat mid ∧
      foldGroup recur (.between before' inner after') inner s =
        .ok (before' ++ mid ++ after') u := by
  obtain ⟨hempty, ⟨hlist, hparts, rfl, rfl⟩ | ⟨hlist, value, v, hrun, hv, hvalue, rfl, rfl⟩⟩ :=
    foldGroup_eq_ok h hu
  · exact ⟨_, rfl, flat_bracketed hinner, foldGroup_list hempty hlist hparts⟩
  · have hsame : valueText before' value after' = valueText before value after := by
      rw [valueText, valueText, hlast, hhead]
    refine ⟨_, rfl, flat_valueText before after hvalue, ?_⟩
    rw [foldGroup_value hempty hlist hrun, hv, hvalue, hsame]
    rfl

end Eval

end Reckoner

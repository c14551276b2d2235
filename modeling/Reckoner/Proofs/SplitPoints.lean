import Reckoner.Proofs.Split

/-!
# Split points and the operands between them

A split point is told by what stands before it alone: as many openers as closers, and no
character after which a sign is expected (`mem_splitPoints_iff`). So the split points of a start
of the text are those of the text that lie in it. The operands are read from the last split point
backwards (`splitPoints_induction`, `operandsOf_snoc`): what is before that point is level, and
what is after it can be split no more, but for a sign at its very start. Main statement:
`splitPoints_stable`.
-/

namespace Reckoner

/-! ## Level texts -/

/-- A text with as many openers as closers, whatever their kinds and their order. -/
def IsLevel (t : Text) : Prop := t.countP isOpener = t.countP isCloser

theorem isLevel_iff {t : Text} : IsLevel t ↔ depthOver 0 t = 0 := by
  have hcounts := depthOver_add_countP 0 t
  rw [IsLevel]
  omega

/-! ## Which positions are split points -/

variable {operators : Text} {signed : Bool}

theorem isSplit_iff (hops : ∀ c ∈ operators, isBracket c = false) {previous : Option Char}
    {c : Char} :
    isSplit operators signed previous c = true ↔
      c ∈ operators ∧ (signed = true → ∀ d, previous = some d → isSignLead d = false) := by
  rw [isSplit, Bool.and_eq_true, Bool.and_eq_true, List.contains_iff_mem]
  constructor
  · rintro ⟨⟨hc, -⟩, hsign⟩
    refine ⟨hc, ?_⟩
    rintro rfl d rfl
    simpa using hsign
  · rintro ⟨hc, hsign⟩
    refine ⟨⟨hc, by rw [hops c hc]; rfl⟩, ?_⟩
    cases signed with
    | false => rfl
    | true =>
      cases previous with
      | none => rfl
      | some d => simp [hsign rfl d rfl]

/-- The character before a position. -/
theorem lastOf_take {t : Text} {i : Nat} (hi : i < t.length) {d : Char} :
    lastOf none (t.take i) = some d ↔ i ≠ 0 ∧ t[i - 1]? = some d := by
  cases i with
  | zero => simp
  | succ i =>
    have hlength : (t.take (i + 1)).length = i + 1 := List.length_take_of_le hi.le
    rw [lastOf_none, List.getLast?_eq_getElem?, hlength, List.getElem?_take_of_lt (by omega)]
    simp

/-- **The split points of a text.** -/
theorem mem_splitPoints_iff (hops : ∀ c ∈ operators, isBracket c = false) {t : Text} {i : Nat} :
    i ∈ splitPoints operators signed t ↔
      IsLevel (t.take i) ∧ (∃ c ∈ operators, t[i]? = some c) ∧
        (signed = true → i = 0 ∨ ∀ d, t[i - 1]? = some d → isSignLead d = false) := by
  rw [splitPoints, mem_splitPointsFrom_iff]
  constructor
  · rintro ⟨l, c, r, rfl, rfl, hdepth, hc⟩
    obtain ⟨hmem, hsign⟩ := (isSplit_iff hops).mp hc
    rw [Nat.zero_add]
    have htake : (l ++ c :: r).take l.length = l := List.take_left
    refine ⟨?_, ⟨c, hmem, by simp⟩, fun hs => ?_⟩
    · rw [htake]
      exact isLevel_iff.mpr hdepth
    · refine (Nat.eq_zero_or_pos l.length).imp_right fun hpos d hd => hsign hs d ?_
      rw [← htake, lastOf_take (by simp)]
      exact ⟨hpos.ne', hd⟩
  · rintro ⟨hlevel, ⟨c, hc, hget⟩, hsign⟩
    obtain ⟨hi, rfl⟩ := List.getElem?_eq_some_iff.mp hget
    refine ⟨t.take i, t[i], t.drop (i + 1), by simp, ?_, isLevel_iff.mp hlevel, ?_⟩
    · rw [List.length_take_of_le hi.le, Nat.zero_add]
    · refine (isSplit_iff hops).mpr ⟨hc, fun hs d hd => ?_⟩
      obtain ⟨hpos, hd⟩ := (lastOf_take hi).mp hd
      exact (hsign hs).resolve_left hpos d hd

theorem pairwise_splitPointsFrom (index : Nat) (depth : Int) (previous : Option Char) (t : Text) :
    (splitPointsFrom operators signed index depth previous t).Pairwise (· < ·) := by
  induction t generalizing index depth previous with
  | nil => exact .nil
  | cons c t ih =>
    rw [splitPointsFrom]
    split_ifs
    · exact .cons (fun _ hpoint => (mem_splitPointsFrom hpoint).1) (ih _ _ _)
    · exact ih _ _ _

/-- Where a text is cut off, its split points are. -/
theorem splitPoints_take (t : Text) (k : Nat) :
    splitPoints operators signed (t.take k) =
      (splitPoints operators signed t).filter (· < k) := by
  by_cases hk : k ≤ t.length
  · have hlength : (t.take k).length = k := List.length_take_of_le hk
    have hbefore : (splitPoints operators signed (t.take k)).filter (· < k) =
        splitPoints operators signed (t.take k) := by
      refine List.filter_eq_self.mpr fun point hpoint => ?_
      have := lt_length_of_mem_splitPoints hpoint
      exact decide_eq_true (by omega)
    conv_rhs => rw [← List.take_append_drop k t, splitPoints, splitPointsFrom_append,
      List.filter_append, ← splitPoints, hbefore]
    -- what is cut off has only split points of its own, which come later
    refine (List.append_right_eq_self.mpr ?_).symm
    refine List.filter_eq_nil_iff.mpr fun point hpoint => ?_
    have := (mem_splitPointsFrom hpoint).1
    rw [decide_eq_true_iff]
    omega
  · rw [List.take_of_length_le (by omega)]
    refine (List.filter_eq_self.mpr fun point hpoint => ?_).symm
    have := lt_length_of_mem_splitPoints hpoint
    exact decide_eq_true (by omega)

/-! ## From the last split point backwards -/

/-- Nothing splits an operand that stands alone but the sign at its start, which has lost the
operator before it. -/
theorem splitPoints_of_unsplit {c : Char} {r : Text} (h : Unsplit operators signed 0 (some c) r) :
    splitPoints operators signed r = [] ∨
      signed = true ∧ splitPoints operators signed r = [0] := by
  cases r with
  | nil => exact .inl rfl
  | cons d r =>
    obtain ⟨hd, hr⟩ := h.of_cons
    rw [splitPoints, splitPointsFrom, hr]
    cases hsplit : isSplit operators signed none d with
    | false => exact .inl rfl
    | true =>
      cases signed with
      | true => exact .inr ⟨rfl, rfl⟩
      | false => exact absurd (hsplit.symm.trans (hd rfl)) (by decide)

/-! ## Operands -/

/-- The operands of a text: what is before the first split point, and what each cut has on its
right. -/
def operandsOf (operators : Text) (signed : Bool) (t : Text) : List Text :=
  let points := splitPoints operators signed t
  t.take (points.headD t.length) :: (cuts t points).map Cut.right

/-- Texts one after another, with a character after each but the last. -/
def interleave : List Text → List Char → Text
  | part :: parts, c :: cs => part ++ c :: interleave parts cs
  | parts, _ => parts.flatten

theorem interleave_snoc {parts : List Text} {cs : List Char}
    (h : parts.length = cs.length + 1) (r : Text) (c : Char) :
    interleave (parts ++ [r]) (cs ++ [c]) = interleave parts cs ++ c :: r := by
  induction cs generalizing parts with
  | nil =>
    obtain ⟨p, rfl⟩ := List.length_eq_one_iff.mp h
    simp [interleave]
  | cons d cs ih =>
    obtain ⟨p, parts, rfl⟩ := List.exists_cons_of_length_eq_add_one h
    simp only [List.cons_append, interleave, List.append_assoc]
    rw [ih (by simpa using h)]

theorem length_operandsOf (t : Text) :
    (operandsOf operators signed t).length = (splitPoints operators signed t).length + 1 := by
  rw [operandsOf, List.length_cons, List.length_map, length_cuts]

theorem operandsOf_of_unsplit {t : Text} (h : splitPoints operators signed t = []) :
    operandsOf operators signed t = [t] := by
  rw [operandsOf, h, List.headD_nil, List.take_length]
  rfl

section Snoc

variable {l r : Text} {c : Char}

/-- The operand after the last split point is the last one. -/
theorem operandsOf_snoc (hdepth : depthOver 0 l = 0)
    (hc : isSplit operators signed (lastOf none l) c = true)
    (hr : Unsplit operators signed 0 (some c) r) :
    operandsOf operators signed (l ++ c :: r) = operandsOf operators signed l ++ [r] := by
  have hinside : ∀ p ∈ splitPoints operators signed l, p < l.length :=
    fun p hp => lt_length_of_mem_splitPoints hp
  rw [operandsOf, operandsOf, splitPoints_snoc hdepth hc hr, cuts_snoc hinside, List.map_append]
  cases hpoints : splitPoints operators signed l with
  | nil => simp
  | cons first later =>
    have hfirst := hinside first (hpoints ▸ List.mem_cons_self)
    rw [List.cons_append, List.headD_cons, List.headD_cons,
      List.take_append_of_le_length hfirst.le]
    rfl

theorem filterMap_getElem?_snoc (hdepth : depthOver 0 l = 0)
    (hc : isSplit operators signed (lastOf none l) c = true)
    (hr : Unsplit operators signed 0 (some c) r) :
    (splitPoints operators signed (l ++ c :: r)).filterMap ((l ++ c :: r)[·]?) =
      (splitPoints operators signed l).filterMap (l[·]?) ++ [c] := by
  have hsame : (splitPoints operators signed l).filterMap ((l ++ c :: r)[·]?) =
      (splitPoints operators signed l).filterMap (l[·]?) :=
    List.filterMap_congr fun p hp =>
      List.getElem?_append_left (lt_length_of_mem_splitPoints hp)
  rw [splitPoints_snoc hdepth hc hr, List.filterMap_append, hsame]
  simp

end Snoc

/-- The operands and the characters that split them are the text. -/
theorem interleave_operandsOf (t : Text) :
    interleave (operandsOf operators signed t)
      ((splitPoints operators signed t).filterMap (t[·]?)) = t := by
  have hpoints : ∀ t : Text, ((splitPoints operators signed t).filterMap (t[·]?)).length =
      (splitPoints operators signed t).length := by
    intro t
    refine List.filterMap_length_eq_length.mpr fun p hp => ?_
    simpa using lt_length_of_mem_splitPoints hp
  induction t using splitPoints_induction operators signed with
  | unsplit t h =>
    rw [operandsOf_of_unsplit h, h]
    simp [interleave]
  | snoc l c r _ hlast ih =>
    obtain ⟨hdepth, hc, hr⟩ := of_splitPoints_snoc hlast
    rw [operandsOf_snoc hdepth hc hr, filterMap_getElem?_snoc hdepth hc hr,
      interleave_snoc (by rw [length_operandsOf, hpoints]), ih]

/-- Behind a level text, the rest decides whether the whole is level. -/
theorem isLevel_append_cons {l r : Text} {c : Char} (hl : depthOver 0 l = 0)
    (hc : isBracket c = false) : IsLevel (l ++ c :: r) ↔ IsLevel r := by
  rw [isLevel_iff, isLevel_iff, depthOver_append, hl, depthOver_cons,
    depthAfter_of_not_isBracket hc]

theorem isLevel_of_mem_operandsOf (t : Text) :
    (∀ p ∈ (operandsOf operators signed t).dropLast, IsLevel p) ∧
      (IsLevel t → ∀ p ∈ operandsOf operators signed t, IsLevel p) := by
  induction t using splitPoints_induction operators signed with
  | unsplit t h =>
    rw [operandsOf_of_unsplit h]
    exact ⟨fun p hp => absurd hp List.not_mem_nil,
      fun ht p hp => List.mem_singleton.mp hp ▸ ht⟩
  | snoc l c r _ hlast ih =>
    obtain ⟨hdepth, hc, hr⟩ := of_splitPoints_snoc hlast
    have hl := ih.2 (isLevel_iff.mpr hdepth)
    rw [operandsOf_snoc hdepth hc hr, List.dropLast_concat,
      isLevel_append_cons hdepth (isBracket_of_isSplit hc)]
    refine ⟨hl, fun hlevel p hp => ?_⟩
    rcases List.mem_append.mp hp with hp | hp
    · exact hl p hp
    · exact List.mem_singleton.mp hp ▸ hlevel

/-- Operands cannot be split again. -/
theorem splitPoints_of_mem_operandsOf {t p : Text} (hp : p ∈ operandsOf operators signed t) :
    splitPoints operators signed p = [] ∨
      signed = true ∧ splitPoints operators signed p = [0] := by
  induction t using splitPoints_induction operators signed with
  | unsplit t h =>
    rw [operandsOf_of_unsplit h, List.mem_singleton] at hp
    exact .inl (hp ▸ h)
  | snoc l c r _ hlast ih =>
    obtain ⟨hdepth, hc, hr⟩ := of_splitPoints_snoc hlast
    rw [operandsOf_snoc hdepth hc hr, List.mem_append, List.mem_singleton] at hp
    obtain hp | rfl := hp
    · exact ih hp
    · exact splitPoints_of_unsplit hr

/-- **Split points are stable and make progress.** They come in order and are told by the text
before them, so a start of the text has those that lie in it. The operands between them are one
more than they are; together with the characters at the split points they are the text. All but
the last one are level, and none can be split again but at a sign at its start. -/
theorem splitPoints_stable (hops : ∀ c ∈ operators, isBracket c = false) (t : Text) :
    (splitPoints operators signed t).Pairwise (· < ·) ∧
      (∀ i, i ∈ splitPoints operators signed t ↔
        IsLevel (t.take i) ∧ (∃ c ∈ operators, t[i]? = some c) ∧
          (signed = true → i = 0 ∨ ∀ d, t[i - 1]? = some d → isSignLead d = false)) ∧
      (∀ k, splitPoints operators signed (t.take k) =
        (splitPoints operators signed t).filter (· < k)) ∧
      (operandsOf operators signed t).length = (splitPoints operators signed t).length + 1 ∧
      interleave (operandsOf operators signed t)
        ((splitPoints operators signed t).filterMap (t[·]?)) = t ∧
      (∀ p ∈ (operandsOf operators signed t).dropLast, IsLevel p) ∧
      ∀ p ∈ operandsOf operators signed t, splitPoints operators signed p = [] ∨
        signed = true ∧ splitPoints operators signed p = [0] :=
  ⟨pairwise_splitPointsFrom 0 0 none t, fun _ => mem_splitPoints_iff hops, splitPoints_take t,
    length_operandsOf t, interleave_operandsOf t, (isLevel_of_mem_operandsOf t).1,
    fun _ hp => splitPoints_of_mem_operandsOf hp⟩

/-- Of the signs of a text one has a bracket around it and one an operator before it; the last
operand starts with the latter and would be split there alone. -/
theorem splitPoints_stable_signs :
    let t := "1+[2-3)--4".toList
    splitPoints "+-".toList true t = [1, 7] ∧
      operandsOf "+-".toList true t = ["1".toList, "[2-3)".toList, "-4".toList] ∧
      interleave (operandsOf "+-".toList true t)
        ((splitPoints "+-".toList true t).filterMap (t[·]?)) = t ∧
      splitPoints "+-".toList true "-4".toList = [0] :=
  ⟨by decide, by decide, (splitPoints_stable (by decide) _).2.2.2.2.1, by decide⟩

end Reckoner

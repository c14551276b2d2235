import Reckoner.Proofs.Nesting
import Reckoner.Proofs.ReportLines
import Reckoner.Proofs.Text.Closer

/-!
# The scanners for brackets agree

A text is cut into parts by counting brackets of both kinds as one depth. The closer of a square
bracket is found by counting square brackets alone, from the bracket on. On properly nested texts
the depth is zero exactly outside of all brackets (`exists_opened`), so joined parts are found
again; and a text without round brackets is properly nested between a square bracket and its
closer (`closes_of_closingBracketFrom`), so the arguments of a call are. Evaluating one of them
never meets brackets that do not match. Main statement: `scanners_agree`.
-/

namespace Reckoner

open Eval

/-! ## Depth zero -/

theorem depthOver_of_properlyNested {t : Text} (h : properlyNested t = true) :
    depthOver 0 t = 0 := (closes_ends h).1

/-- At depth zero no bracket is open. -/
theorem properlyNested_of_depthOver {l r : Text} (h : properlyNested (l ++ r) = true)
    (hdepth : depthOver 0 l = 0) : properlyNested l = true := by
  obtain ⟨now, hlength, hnow⟩ := exists_opened h
  have hnone : now = [] := by
    rw [List.length_nil, Nat.cast_zero, hdepth] at hlength
    exact List.eq_nil_of_length_eq_zero (by omega)
  have hend := hnow [] []
  rw [hnone, List.append_nil, List.append_nil] at hend
  exact hend

/-! ## Parts -/

/-- A character stands at a place of a text where no bracket is open. -/
def StandsOutside (c : Char) (t : Text) : Prop :=
  ∃ i < t.length, t[i]? = some c ∧ properlyNested (t.take i) = true

instance (c : Char) (t : Text) : Decidable (StandsOutside c t) :=
  inferInstanceAs (Decidable (∃ i < t.length, t[i]? = some c ∧ properlyNested (t.take i) = true))

variable {isSeparator : Char → Bool}

/-- What no separator cuts, goes to one part. -/
theorem splitTopLevelFrom_append {depth : Int} {t : Text}
    (h : ∀ l c r, t = l ++ c :: r → isSeparator c = true → depthOver depth l ≠ 0) (rest : Text) :
    splitTopLevelFrom isSeparator depth (t ++ rest) =
      prependPart t (splitTopLevelFrom isSeparator (depthOver depth t) rest) := by
  induction t generalizing depth with
  | nil => rfl
  | cons c t ih =>
    have hc : ¬(isSeparator c && !isBracket c && depth == 0) = true := by
      rw [Bool.and_eq_true, Bool.and_eq_true, beq_iff_eq]
      exact fun hcut => h [] c t rfl hcut.1.1 hcut.2
    rw [List.cons_append, splitTopLevelFrom, if_neg hc, ih, depthOver_cons]
    · rfl
    · rintro l d r rfl hd
      exact h (c :: l) d r rfl hd

theorem onePart_of_properlyNested {c : Char} {p : Text} (hp : properlyNested p = true)
    (hc : ¬StandsOutside c p) : OnePart (· == c) p := by
  intro rest
  rw [splitTopLevelFrom_append, depthOver_of_properlyNested hp]
  rintro l d r rfl hd hdepth
  rw [eq_of_beq hd] at hp hc
  refine hc ⟨l.length, by simp, by simp, ?_⟩
  rw [List.take_left]
  exact properlyNested_of_depthOver hp hdepth

variable (isSeparator) in
/-- The first part closes what was open before the text, and the others are properly nested. -/
theorem closes_parts {opened : List Char} {t : Text} (h : closes opened t = true) :
    ∃ p parts, splitTopLevelFrom isSeparator opened.length t = p :: parts ∧
      closes opened p = true ∧ ∀ q ∈ parts, properlyNested q = true := by
  induction t generalizing opened with
  | nil => exact ⟨[], [], rfl, h, List.forall_mem_nil _⟩
  | cons c t ih =>
    rw [splitTopLevelFrom]
    split_ifs with hcut
    · rw [Bool.and_eq_true, Bool.and_eq_true, Bool.not_eq_true', beq_iff_eq] at hcut
      have hnone : opened = [] := List.eq_nil_of_length_eq_zero (by omega)
      rw [hnone, closes_cons_of_not_isBracket hcut.1.2] at h
      obtain ⟨p, parts, hparts, hp, hrest⟩ := ih h
      rw [hnone]
      exact ⟨[], p :: parts, by rw [hparts], rfl, List.forall_mem_cons.mpr ⟨hp, hrest⟩⟩
    · obtain ⟨now, hlength, hnow⟩ := exists_opened_cons h
      have hstep := hnow []
      rw [List.append_nil, List.append_nil] at hstep
      obtain ⟨p, parts, hparts, hp, hrest⟩ := ih ((hstep t).symm.trans h)
      refine ⟨c :: p, parts, ?_, (hstep p).trans hp, hrest⟩
      rw [← hlength, hparts]
      rfl

/-- The parts of a properly nested text are properly nested. -/
theorem properlyNested_part {t p : Text} (h : properlyNested t = true)
    (hp : p ∈ splitTopLevel isSeparator t) : properlyNested p = true := by
  obtain ⟨q, parts, hparts, hq, hrest⟩ := closes_parts isSeparator h
  rw [splitTopLevel, show (0 : Int) = ([] : List Char).length from rfl, hparts] at hp
  rcases List.mem_cons.mp hp with rfl | hp
  · exact hq
  · exact hrest p hp

/-! ## The arguments of a call -/

/-- What stands before the closer of one of several square brackets closes the others. -/
theorem closes_of_closingBracketFrom {x : Text} (hx : Flat x) (index : Nat) {k : Nat}
    (h : closingBracketFrom index (k + 1 : Nat) (x ++ [']']) = some (index + x.length)) :
    closes (List.replicate k '[') x = true := by
  -- besides the bracket whose closer is looked for, `k` more are open
  induction x generalizing index k with
  | nil =>
    cases k with
    | zero => rfl
    | succ k =>
      rw [List.nil_append, closingBracketFrom_cons (by omega), squareDepth_closer,
        if_neg (by omega)] at h
      cases h
  | cons c x ih =>
    rw [List.cons_append, closingBracketFrom_cons (by omega)] at h
    split_ifs at h with hlast
    · simp at h
    · have hlength : index + (c :: x).length = index + 1 + x.length := by
        rw [List.length_cons]
        omega
      rw [hlength] at h
      by_cases hopen : c = '['
      · subst hopen
        rw [closes_opener rfl]
        exact ih hx.tail (index + 1) (k := k + 1) h
      · by_cases hclose : c = ']'
        · subst hclose
          rw [squareDepth_closer] at h hlast
          obtain ⟨k, rfl⟩ : ∃ k', k = k' + 1 := Nat.exists_eq_succ_of_ne_zero (by omega)
          rw [List.replicate_succ, closes_closer_cons rfl]
          refine ih hx.tail (index + 1) ?_
          rw [← h]
          congr 1
          omega
        · have hround : c ≠ '(' ∧ c ≠ ')' :=
            ⟨fun hc => hx.1 (hc ▸ List.mem_cons_self), fun hc => hx.2 (hc ▸ List.mem_cons_self)⟩
          have hb : isBracket c = false := by
            simp [isBracket, isOpener, isCloser, hopen, hclose, hround]
          rw [squareDepth_other hopen hclose, Int.add_zero] at h
          rw [closes_cons_of_not_isBracket hb]
          exact ih hx.tail (index + 1) h

/-- The closer of the first bracket is looked for as from any other position. -/
theorem bracketedList?_of_closingBracketAt {a : Text} (hhead : a.head? = some '[')
    (hclose : closingBracketAt a 0 = .found (a.length - 1)) :
    bracketedList? a = some (splitTopLevel (· == ';') (a.drop 1).dropLast) := by
  have hlength : 0 < a.length := List.length_pos_of_mem (List.mem_of_mem_head? hhead)
  have hread : a.readFrom 0 = a := rfl
  rw [bracketedList?, hhead]
  cases hsearch : closingBracket a with
  | none =>
    rw [closingBracketAt_of_none (by omega) (hread.symm ▸ hsearch)] at hclose
    cases hclose
  | some index =>
    rw [closingBracketAt_of_some (by omega) (hread.symm ▸ hsearch)] at hclose
    have hindex := CloserSearch.found.inj hclose
    obtain rfl : index = a.length - 1 := by omega
    simp

/-- The arguments of a call without groups are properly nested. -/
theorem properlyNested_piece {argument piece : Text} {pieces : List Text} (ha : Flat argument)
    (h : bracketedList? argument = some pieces) (hpiece : piece ∈ pieces) :
    properlyNested piece = true := by
  obtain ⟨body, rfl, hclose, rfl⟩ := exists_body_of_bracketedList h
  have hbody : Flat body := (flat_append.mp ha.tail).1
  refine properlyNested_part ?_ hpiece
  refine closes_of_closingBracketFrom hbody 1 (k := 0) ?_
  rw [Nat.add_comm 1 body.length, ← hclose]
  rfl

theorem count_square_of_properlyNested {t : Text} (ht : Flat t) (h : properlyNested t = true) :
    t.count '[' = t.count ']' := by
  have hdepth := depthOver_of_properlyNested h
  rw [ht.depthOver_eq] at hdepth
  omega

theorem Part.flat {u t : Text} (h : Part u t) (ht : Flat t) : Flat u :=
  ⟨fun hu => ht.1 (h.inside.subset hu), fun hu => ht.2 (h.inside.subset hu)⟩

theorem HandsOn.count_square {t u : Text} (h : HandsOn t .whole u) (ht : Flat t) :
    u.count '[' = u.count ']' := by
  have hu := h.part_of.flat ht
  cases h with
  | part hentry _ => exact absurd rfl hentry
  | piece hargument hpieces hpiece =>
    exact count_square_of_properlyNested hu
      (properlyNested_piece (hargument.flat ht) hpieces hpiece)

/-- **Brackets stay even.** Without groups, every nested evaluation that starts with a look at the
brackets is of an argument of a call. -/
theorem writes_even {σ : Type} {stack : Stack} (setting : Setting σ) (levels : Nat)
    {entry : Entry} {t : Text} (ht : Flat t)
    (hsquare : entry = .whole → t.count '[' = t.count ']') :
    Writes (fun e => e.isUneven = false)
      (descend setting levels entry t : Eval σ Float stack) := by
  have hpermits : ∀ t, PermitsEven (fun e => e.isUneven = false) t := fun _ _ _ he => he
  induction levels generalizing entry t with
  | zero => exact .guarded (@Respects.refuse σ σ _ _ _ _ Writes.respects _ rfl)
  | succ levels ih =>
    have hr : ∀ entry u, HandsOn t entry u →
        Writes (fun e => e.isUneven = false)
          (descend setting levels entry u : Eval σ Float stack) := by
      intro entry u hu
      refine ih (hu.part_of.flat ht) ?_
      rintro rfl
      exact hu.count_square ht
    -- only an evaluation from the start looks at the brackets, and it finds none to fold
    have hoperators : Writes (fun e => e.isUneven = false)
        (operators setting (descend setting levels) t : Eval σ Float stack) :=
      @Respects.operators σ σ _ _ _ _ Writes.respects _ (descend setting levels) setting setting t
        (hpermits t) hr fun _ => .roll (hpermits t)
    refine .guarded (.nested ?_)
    cases entry with
    | whole =>
      rw [Eval.step, groupsThenOperators, resolveGroups_of_no_group ht.1 ht.2 (hsquare rfl),
        pure_bind]
      exact hoperators.guarded
    | operand => exact hoperators
    | factorial =>
      exact @Respects.factorialTier σ σ _ _ _ _ Writes.respects _ (descend setting levels) t
        (hpermits t) hr
    | application =>
      exact @Respects.application σ σ _ _ _ _ Writes.respects _ (descend setting levels) t
        (hpermits t) hr

/-- **The scanners for brackets agree.** Splitting at a character that is no bracket and joining
anew changes nothing, nor does joining properly nested parts that do not hold this character
outside of brackets and splitting anew. The closer of a square bracket is at the least position
up to which the square brackets are even. So where it ends an argument without round brackets,
the pieces in between are properly nested, and to evaluate one of them, with any number of levels
to spend, enters nothing about brackets that do not match. -/
theorem scanners_agree {c : Char} (hc : isBracket c = false) :
    (∀ t, Text.join [c] (splitTopLevel (· == c) t) = t) ∧
      (∀ parts : List Text, parts ≠ [] →
        (∀ p ∈ parts, properlyNested p = true ∧ ¬StandsOutside c p) →
          splitTopLevel (· == c) (Text.join [c] parts) = parts) ∧
      (∀ (t : Text) (start : Int), t.charAt? start = some '[' →
        (∀ i, closingBracketAt t start = .found i ↔ IsLeast {i | EvenBetween t start i} i) ∧
          (closingBracketAt t start = .unclosed ↔ ∀ i, ¬EvenBetween t start i)) ∧
      ∀ a : Text, Flat a → a.head? = some '[' → closingBracketAt a 0 = .found (a.length - 1) →
        bracketedList? a = some (splitTopLevel (· == ';') (a.drop 1).dropLast) ∧
          ∀ p ∈ splitTopLevel (· == ';') (a.drop 1).dropLast, properlyNested p = true ∧
            ∀ {σ : Type} (setting : Setting σ) (levels : Nat) (stack : Stack),
              Writes (fun e => e.isUneven = false)
                (descend setting levels .whole p : Eval σ Float stack) := by
  refine ⟨fun t => (reseparated_join (· == c) c 0 t).eq, fun parts hne hparts => ?_,
    fun t start h => ⟨fun i => closingBracketAt_eq_found_iff h, closingBracketAt_eq_unclosed_iff h⟩,
    fun a ha hhead hclose => ?_⟩
  · refine splitTopLevel_join_onePart ?_ hc hne fun p hp => ?_
    · exact beq_self_eq_true c
    · exact onePart_of_properlyNested (hparts p hp).1 (hparts p hp).2
  · have hlist := bracketedList?_of_closingBracketAt hhead hclose
    refine ⟨hlist, fun p hp => ?_⟩
    have hnested := properlyNested_piece ha hlist hp
    have hflat : Flat p := flat_piece
      ⟨fun h => ha.1 (List.mem_of_mem_drop (List.mem_of_mem_dropLast h)),
        fun h => ha.2 (List.mem_of_mem_drop (List.mem_of_mem_dropLast h))⟩ hp
    exact ⟨hnested, fun setting levels _ => writes_even setting levels hflat fun _ =>
      count_square_of_properlyNested hflat hnested⟩

/-- Two lists of arguments, one inside of the other. A bracket in front of the inner one is of no
account, even where it closes more than was open. -/
theorem scanners_agree_minimum :
    let parts := ["1".toList, "min[2;3]".toList]
    let argument := "[1;min[2;3]]".toList
    splitTopLevel (· == ';') (Text.join [';'] parts) = parts ∧
      IsLeast {i | EvenBetween "]min[2;[3]]".toList 4 i} 10 ∧
      bracketedList? argument = some parts ∧
      ∀ p ∈ parts, properlyNested p = true ∧
        ∀ {σ : Type} (setting : Setting σ) (levels : Nat) (stack : Stack),
          Writes (fun e => e.isUneven = false)
            (descend setting levels .whole p : Eval σ Float stack) := by
  obtain ⟨-, hparts, hcloser, hlist⟩ := scanners_agree (c := ';') (by decide)
  have hpieces : splitTopLevel (· == ';') ("[1;min[2;3]]".toList.drop 1).dropLast =
      ["1".toList, "min[2;3]".toList] := by decide
  have hargument := hlist "[1;min[2;3]]".toList ⟨by decide, by decide⟩ (by decide) (by decide)
  rw [hpieces] at hargument
  refine ⟨hparts _ (by decide) (by decide), ?_, hargument⟩
  exact ((hcloser "]min[2;[3]]".toList 4 (by decide)).1 10).mp (by decide)

end Reckoner

import Reckoner.Proofs.Group
import Reckoner.Proofs.Name

/-!
# Characters without a meaning

A text without groups that holds a character which no number, name or operator is written
with cannot be evaluated without a problem: whatever part of the text a tier hands on, one of
the parts has the character, and in the end it stands where a number is expected. A comma is
such a character.
-/

namespace Reckoner

open Eval

/-! ## Evaluations that fail -/

variable {σ α β : Type} {stack : Stack}

/-- Every run of the evaluation ends with a problem, or in a fault. -/
def Fails (m : Eval σ α stack) : Prop := ∀ ⦃s a t⦄, m s = .ok a t → t.failed = true

theorem fails_refuse (p : Problem) : Fails (refuse p : Eval σ Float stack) := by
  intro s a t h
  exact failed_of_enter_return h

theorem Fails.bind {neutral : β → Prop} {m : Eval σ α stack} {k : α → Eval σ β stack}
    (hm : Fails m) (hk : ∀ a, Stops neutral (k a)) : Fails (m >>= k) := by
  intro s b u h
  obtain ⟨a, t, h1, h2⟩ := bind_eq_ok.mp h
  have ht := hm h1
  obtain ⟨b', hb, -⟩ := (hk a).idle ht
  rw [hb] at h2
  cases h2
  exact ht

theorem Fails.of_next {m : Eval σ α stack} {k : α → Eval σ β stack} (hk : ∀ a, Fails (k a)) :
    Fails (m >>= k) := by
  intro s b u h
  obtain ⟨a, t, -, h2⟩ := bind_eq_ok.mp h
  exact hk a h2

theorem Fails.guarded {m : Eval σ Float stack} (hm : Fails m) : Fails (unlessFailed m) := by
  intro s a t h
  rw [unlessFailed_apply] at h
  split_ifs at h with hs
  · cases h
    exact hs
  · exact hm h

theorem Fails.nested {m : Eval σ α stack} (hm : Fails m) : Fails (nested m) := by
  intro s a u h
  obtain ⟨-, t, ht, rfl⟩ := nested_eq_ok.mp h
  have hfailed := hm ht
  exact hfailed

/-! ## Foreign characters -/

/-- A character that no part of an expression without groups is written with. -/
structure Foreign (c : Char) : Prop where
  number : ¬IsNumberChar c
  mark : c ≠ 'e'
  operator : c ∉ ['*', '/', '^', '%', 'd', '!']
  separator : c ≠ ';'
  bracket : isBracket c = false
  constant : ∀ k ∈ constants, c ∉ k.name.toList
  /-- Not even in lower case is it a letter. -/
  letter : ∀ d ∈ lowerForm c, d.isLower = false

theorem foreign_comma : Foreign ',' where
  number := by
    rintro (h | h)
    · revert h
      decide
    · revert h
      decide
  mark := by decide
  operator := by decide
  separator := by decide
  bracket := by decide
  constant := by
    simp only [constants, List.forall_mem_cons]
    decide
  letter := by decide

variable {c : Char} (hc : Foreign c)
include hc

/-! ### In numbers and names -/

/-- A number cannot be read from a text with a foreign character. -/
theorem Foreign.fails_readLiteral {t : Text} (h : c ∈ t) : Fails (readLiteral t : Eval σ Float) := by
  have hnone : Numeral.ofText? (takeNegative t).2 = none := by
    rw [Option.eq_none_iff_forall_not_mem]
    intro n hn
    exact (isNumberChar_of_ofText hn c h).elim hc.number hc.mark
  unfold readLiteral
  dsimp only
  rw [hnone]
  exact fails_refuse _

/-- It is not in a multiplier, so it stands behind it. -/
theorem Foreign.mem_takeMultiplier {t : Text} (h : c ∈ t) : c ∈ (takeMultiplier t).2 := by
  rw [← multiplier_append t, List.mem_append] at h
  exact h.resolve_left fun hmultiplier => hc.number (isNumberChar_of_mem_multiplier c hmultiplier)

theorem Foreign.mem_drop_name {name : String} (hname : ∀ d ∈ name.toList, d.isLower = true)
    {t : Text} (hstarts : startsName t.lowered name = true) (h : c ∈ t) :
    c ∈ t.drop name.length := by
  rw [← List.take_append_drop name.length t, List.mem_append] at h
  refine h.resolve_left fun htake => ?_
  rw [← String.length_toList] at htake
  obtain ⟨d, hd, hmem⟩ := exists_mem_name_of_mem_take hname hstarts c htake
  have hlower := hname d hmem
  rw [hc.letter d hd] at hlower
  cases hlower

/-! ### In functions and constants -/

section Tiers

variable {setting : Setting σ} {recur : Recur σ} (hr : ∀ entry t, Stops IsOne (recur entry t))
  (hf : ∀ entry t, c ∈ t → '(' ∉ t → Fails (recur entry t))
include hr hf

omit hc hf in
theorem fails_arguments {pieces : List Text} {p : Text} (hp : p ∈ pieces)
    (h : Fails (recur .whole p)) : Fails (pieces.mapM (recur .whole)) := by
  have hanswer : ∀ xs : List Float, Stops (fun _ => True) (pure xs : Eval σ (List Float)) :=
    fun _ => .answer trivial
  induction pieces with
  | nil => cases hp
  | cons q pieces ih =>
    rw [List.mapM_cons]
    rcases List.mem_cons.mp hp with rfl | hp
    · exact h.bind fun _ => (stops_arguments hr pieces).bind fun _ => hanswer _
    · exact .of_next fun _ => (ih hp).bind fun _ => hanswer _

omit hr hf in
/-- The character is in one of the arguments of a list. -/
theorem Foreign.exists_argument {argument : Text} {pieces : List Text}
    (h : bracketedList? argument = some pieces) (hca : c ∈ argument) (ho : '(' ∉ argument) :
    ∃ p ∈ pieces, c ∈ p ∧ '(' ∉ p := by
  obtain ⟨body, rfl, -, rfl⟩ := exists_body_of_bracketedList h
  have hne : ∀ b, isBracket b = true → c ≠ b := by
    rintro b hb rfl
    rw [hc.bracket] at hb
    cases hb
  have hmem : c ∈ body := by
    simpa [hne '[' rfl, hne ']' rfl] using hca
  have hseparator : (c == ';') = false := beq_false_of_ne hc.separator
  obtain ⟨p, hp, hcp⟩ := @exists_part_of_mem (· == ';') 0 body c hseparator hmem
  refine ⟨p, hp, hcp, fun hop => ho ?_⟩
  have hbody := mem_of_mem_splitTopLevelFrom hp hop
  simp [hbody]

theorem Foreign.fails_applyList {f : ListFunction} {multiplier argument expression : Text}
    (hca : c ∈ argument) (ho : '(' ∉ argument) :
    Fails (applyList recur f multiplier argument expression) := by
  unfold applyList
  split_ifs with hempty
  · exact fails_refuse _
  · split
    · next pieces hpieces =>
      split_ifs
      · exact fails_refuse _
      · obtain ⟨p, hp, hcp, hop⟩ := hc.exists_argument hpieces hca ho
        exact (fails_arguments hr hp (hf .whole p hcp hop)).bind fun _ =>
          (settling_callList _ _ _ _).guarded
    · exact (hf .application argument hca ho).bind fun _ => (settling_callList _ _ _ _).guarded

omit hc hr in
theorem fails_applyUnary {f : UnaryFunction} {multiplier argument expression : Text}
    (hca : c ∈ argument) (ho : '(' ∉ argument) :
    Fails (applyUnary recur f multiplier argument expression) := by
  unfold applyUnary
  split_ifs
  · exact fails_refuse _
  · exact fails_refuse _
  · exact (hf .application argument hca ho).bind fun _ => (settling_callUnary _ _ _ _).guarded

omit hr in
theorem Foreign.fails_applyConstant {t : Text} (hct : c ∈ t) (ho : '(' ∉ t) :
    Fails (applyConstant recur t) := by
  unfold applyConstant
  split
  · exact hc.fails_readLiteral hct
  · next k hk =>
    obtain ⟨hkm, front, rfl⟩ := mem_of_findConstant hk
    have hcf : c ∈ front := (List.mem_append.mp hct).resolve_right (hc.constant k hkm)
    have hof : '(' ∉ front := fun h => ho (List.mem_append_left _ h)
    dsimp only
    rw [take_name]
    split_ifs with hempty
    · rw [List.isEmpty_iff.mp hempty] at hcf
      cases hcf
    · exact (hf .application front hcf hof).bind fun factor =>
        ((stops_requireFinite (factor * k.value) _).noted fun _ =>
          .constant k.name k.value _).settling.guarded

theorem Foreign.fails_application {t : Text} (hct : c ∈ t) (ho : '(' ∉ t) :
    Fails (application recur t) := by
  refine Fails.guarded ?_
  have hrest := hc.mem_takeMultiplier hct
  have horest : '(' ∉ (takeMultiplier t).2 := fun h => ho ((isSuffix_takeMultiplier t).subset h)
  dsimp only
  split
  · next f hfind =>
    obtain ⟨hmem, hstarts⟩ := mem_of_findListFunction hfind
    have hlower := isLower_of_mem_listFunctions f hmem
    exact hc.fails_applyList hr hf (hc.mem_drop_name hlower hstarts hrest)
      fun h => horest (List.mem_of_mem_drop h)
  · split
    · next f hfind =>
      obtain ⟨hmem, hstarts⟩ := mem_of_findUnaryFunction hfind
      have hlower := isLower_of_mem_unaryFunctions f hmem
      exact fails_applyUnary hf (hc.mem_drop_name hlower hstarts hrest)
        fun h => horest (List.mem_of_mem_drop h)
    · exact hc.fails_applyConstant hf hct ho

theorem Foreign.fails_factorialTier {t : Text} (hct : c ∈ t) (ho : '(' ∉ t) :
    Fails (factorialTier recur t) := by
  refine Fails.guarded ?_
  split_ifs with hlast hempty
  · exact hc.fails_application hr hf hct ho
  · exact fails_refuse _
  · have hfront : c ∈ t.dropLast := by
      have hnil := List.ne_nil_of_mem hct
      have hmark : t.getLast hnil = '!' := by
        rw [List.getLast?_eq_some_getLast hnil] at hlast
        simpa using hlast
      rw [← List.dropLast_append_getLast hnil, hmark, List.mem_append, List.mem_singleton] at hct
      refine hct.resolve_right ?_
      rintro rfl
      exact hc.operator (by decide)
    have hopen : '(' ∉ t.dropLast := fun h => ho (List.mem_of_mem_dropLast h)
    exact (hf .factorial t.dropLast hfront hopen).bind fun value =>
      ((settling_factorial value).noted fun result => .factorial value result t).guarded

/-! ### In operands -/

variable {tier : Tier} {next : Text → Eval σ Float}

omit hc hr in
theorem fails_applyCut {neutral left : Float} {cut : Cut} (hcr : c ∈ cut.right)
    (ho : '(' ∉ cut.right) : Fails (applyCut setting recur neutral left cut) := by
  have hempty : cut.right.isEmpty = false := by
    rw [List.isEmpty_eq_false_iff]
    exact List.ne_nil_of_mem hcr
  unfold applyCut operand
  rw [hempty, if_neg Bool.false_ne_true]
  exact (hf .operand cut.right hcr ho).bind fun right =>
    (settling_finishCut left right cut).guarded

omit hc in
/-- A character that is no operator of the tier is in one of the operands. -/
theorem fails_splitTier (hop : c ∉ tier.symbols)
    (hn : ∀ t, c ∈ t → '(' ∉ t → Fails (next t)) {t : Text} (hct : c ∈ t) (ho : '(' ∉ t) :
    Fails (splitTier setting recur tier next t) := by
  induction t using splitPoints_induction tier.symbols tier.signed with
  | unsplit t hsplit =>
    rw [splitTier_of_unsplit hsplit]
    exact (hn t hct ho).guarded
  | snoc l d r hd hlast ih =>
    rw [splitTier_snoc hr hlast]
    simp only [List.mem_append, List.mem_cons, not_or] at hct ho
    rcases hct with hcl | rfl | hcr
    · refine Fails.bind ?_ fun x => (settling_applyCut hr tier.neutral x _).guarded
      have hempty : l.isEmpty = false := by
        rw [List.isEmpty_eq_false_iff]
        exact List.ne_nil_of_mem hcl
      unfold leftPart operand
      rw [hempty, if_neg Bool.false_ne_true]
      split_ifs
      · exact (hf .operand l hcl ho.1).guarded
      · exact ih hcl ho.1
    · exact absurd hd hop
    · exact .of_next fun x => (fails_applyCut hf hcr ho.2.2).guarded

theorem Foreign.fails_operators {t : Text} (hct : c ∈ t) (ho : '(' ∉ t) :
    Fails (operators setting recur t) := by
  have hadditive : c ∉ Tier.additive.symbols := fun h => hc.number (.inr (by
    simp only [Tier.symbols, Tier.additive, List.map, Operator.symbol] at h
    simp only [List.mem_cons, List.not_mem_nil, or_false] at h ⊢
    tauto))
  have hother : ∀ tier ∈ [Tier.multiplicative, Tier.powers, Tier.diceAndModulo],
      c ∉ tier.symbols := by
    have hsub : ∀ tier ∈ [Tier.multiplicative, Tier.powers, Tier.diceAndModulo],
        ∀ d ∈ tier.symbols, d ∈ ['*', '/', '^', '%', 'd', '!'] := by
      simp only [List.forall_mem_cons]
      decide
    exact fun tier htier h => hc.operator (hsub tier htier c h)
  refine fails_splitTier hr hf hadditive (fun t ht ho => ?_) hct ho
  refine fails_splitTier hr hf (hother _ (by simp)) (fun t ht ho => ?_) ht ho
  refine fails_splitTier hr hf (hother _ (by simp)) (fun t ht ho => ?_) ht ho
  refine fails_splitTier hr hf (hother _ (by simp)) (fun t ht ho => ?_) ht ho
  exact hc.fails_factorialTier hr hf ht ho

omit hc hr hf in
theorem fails_resolveGroups_of_uneven {t : Text} (h : t.count '(' ≠ t.count ')') :
    Fails (resolveGroups recur t) := by
  rw [resolveGroups_of_uneven h]
  split_ifs
  · exact fun _ _ _ hu => failed_of_enter_return hu
  · exact .of_next fun _ _ _ _ hu => failed_of_enter_return hu

omit hc hr hf in
theorem fails_resolveGroups_of_square {t : Text} (h : t.count '(' = t.count ')')
    (hs : t.count '[' ≠ t.count ']') : Fails (resolveGroups recur t) := by
  rw [resolveGroups_of_even h, if_neg hs]
  exact fun _ _ _ hu => failed_of_enter_return hu

omit hc hr hf in
/-- Where the groups of a text are folded without a problem, its brackets are even in number,
and there is one round for each group. -/
theorem even_of_resolveGroups {t flat : Text} {s u : Progress σ}
    (h : resolveGroups recur t s = .ok flat u) (hu : u.failed = false) :
    t.count '(' = t.count ')' ∧ t.count '[' = t.count ']' ∧
      foldGroups recur (t.count ')') t s = .ok flat u := by
  have hround : t.count '(' = t.count ')' := by
    by_contra huneven
    rw [fails_resolveGroups_of_uneven huneven h] at hu
    cases hu
  have hsquare : t.count '[' = t.count ']' := by
    by_contra huneven
    rw [fails_resolveGroups_of_square hround huneven h] at hu
    cases hu
  rw [resolveGroups_of_even hround, if_pos hsquare] at h
  exact ⟨hround, hsquare, h⟩

theorem Foreign.fails_step {t : Text} (hct : c ∈ t) (ho : '(' ∉ t) (entry : Entry) :
    Fails (Eval.step setting recur entry t) := by
  cases entry with
  | whole =>
    have hguarded : ∀ flat, Stops IsOne (unlessFailed (operators setting recur flat)) :=
      fun flat => (stops_operators hr flat).settling.guarded
    have hnone : t.count '(' = 0 := List.count_eq_zero_of_not_mem ho
    by_cases hclose : ')' ∈ t
    · have huneven : t.count '(' ≠ t.count ')' := by
        rw [hnone]
        exact (List.count_pos_iff.mpr hclose).ne
      exact (fails_resolveGroups_of_uneven huneven).bind hguarded
    · by_cases hsquare : t.count '[' = t.count ']'
      · show Fails (groupsThenOperators setting recur t)
        rw [groupsThenOperators, resolveGroups_of_no_group ho hclose hsquare, pure_bind]
        exact (hc.fails_operators hr hf hct ho).guarded
      · have heven : t.count '(' = t.count ')' :=
          hnone.trans (List.count_eq_zero_of_not_mem hclose).symm
        exact (fails_resolveGroups_of_square heven hsquare).bind hguarded
  | operand => exact hc.fails_operators hr hf hct ho
  | factorial => exact hc.fails_factorialTier hr hf hct ho
  | application => exact hc.fails_application hr hf hct ho

end Tiers

/-- **Foreign characters.** A text without groups that has such a character is evaluated with
a problem, wherever the evaluation starts and however many levels it has. -/
theorem Foreign.fails_descend (setting : Setting σ) (levels : Nat) (entry : Entry) {t : Text}
    (hct : c ∈ t) (ho : '(' ∉ t) : Fails (descend setting levels entry t : Eval σ Float) := by
  induction levels generalizing entry t with
  | zero => exact (fails_refuse _).guarded
  | succ levels ih =>
    exact (hc.fails_step (stops_descend setting levels) (fun entry t ht ho => ih entry ht ho) hct ho
      entry).nested.guarded

end Reckoner

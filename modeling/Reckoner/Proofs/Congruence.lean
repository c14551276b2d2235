import Reckoner.Proofs.Mention
import Mathlib.Tactic.SplitIfs

/-!
# Relations that evaluation respects

An evaluation is put together from very few parts: answering, sequencing, reading the
flag, entering a problem or a step, going one level deeper, and rolling dice. A relation
between the evaluations of two settings that the first five respect is respected by every
tier, if it holds of the nested evaluations of the texts that the tier hands on and, where
there is a `d`, of the rolls (`Respects.evalStep`). The relation may be one that only certain
entries respect, if every entry about the text is such an entry. If the other two parts respect
it as well it is respected by the evaluator as a whole (`Congruence.descend`). What holds of all
runs, or of all pairs of runs, is proved by naming the relation and checking the parts.
-/

namespace Reckoner

open Eval

/-- A relation between evaluations that every part of an evaluation respects, dice and nested
evaluations aside, as long as the entries are allowed. The two may run on different stacks. -/
structure Respects {σ σ' : Type} {stack stack' : Stack} (allowed : Event → Prop)
    (rel : (α : Type) → Eval σ α stack → Eval σ' α stack' → Prop) : Prop where
  answer : ∀ {α : Type} (a : α), rel α (pure a) (pure a)
  sequence : ∀ {α β : Type} {m : Eval σ α stack} {m' : Eval σ' α stack'} {k : α → Eval σ β stack}
    {k' : α → Eval σ' β stack'}, rel α m m' → (∀ a, rel β (k a) (k' a)) →
      rel β (m >>= k) (m' >>= k')
  flag : rel Bool failed failed
  problem : ∀ p, allowed (.problem p) → rel Unit (enter p) (enter p)
  step : ∀ step, allowed (.step step) → rel Unit (note step) (note step)

/-- A relation between evaluations under two settings that every part of an evaluation
respects, whatever is entered. -/
structure Congruence {σ σ' : Type} {stack stack' : Stack} (setting : Setting σ)
    (setting' : Setting σ') (rel : (α : Type) → Eval σ α stack → Eval σ' α stack' → Prop) : Prop
    extends Respects (fun _ => True) rel where
  deeper : ∀ {α : Type} {m : Eval σ α stack} {m' : Eval σ' α stack'}, rel α m m' →
    rel α (nested m) (nested m')
  dice : ∀ count sides, rel Float (roll setting count sides) (roll setting' count sides)

namespace Respects

variable {σ σ' : Type} {stack stack' : Stack} {allowed : Event → Prop}
  {rel : (α : Type) → Eval σ α stack → Eval σ' α stack' → Prop} (h : Respects allowed rel)
include h

/-! ## Parts that refuse and guard -/

/-- What comes after a step matters only for the values that the step can answer with. -/
theorem sequence_of {α β : Type} [Inhabited β] {m : Eval σ α stack} {m' : Eval σ' α stack'}
    {k : α → Eval σ β stack} {k' : α → Eval σ' β stack'} (hm : rel α m m')
    (hk : ∀ a, Answers m a ∨ Answers m' a → rel β (k a) (k' a)) :
    rel β (m >>= k) (m' >>= k') := by
  classical
  -- on all other values the rest may be changed so that the relation holds of it
  have hsame : ∀ (possible : α → Prop) {τ : Type} {base : Stack} {n : Eval τ α base}
      {j : α → Eval τ β base},
      (∀ a, Answers n a → possible a) →
        n >>= j = n >>= fun a => if possible a then j a else pure default := by
    intro possible τ base n j hpossible
    funext s
    rw [bind_apply, bind_apply]
    cases hrun : n s with
    | error fault t => rfl
    | ok a t => exact congrFun (if_pos (hpossible a ⟨s, t, hrun⟩)).symm t
  rw [hsame (fun a => Answers m a ∨ Answers m' a) fun a => .inl,
    hsame (fun a => Answers m a ∨ Answers m' a) fun a => .inr]
  refine h.sequence hm fun a => ?_
  split_ifs with ha
  · exact hk a ha
  · exact h.answer default

theorem refuse {p : Problem} (hp : allowed (.problem p)) : rel Float (refuse p) (refuse p) :=
  h.sequence (h.problem p hp) fun _ => h.answer _

theorem enterError {α : Type} {check : Except Problem α}
    (hp : ∀ p, check = .error p → allowed (.problem p)) :
    rel Unit (enterError check) (enterError check) := by
  cases check with
  | error p => exact h.problem p (hp p rfl)
  | ok a => exact h.answer ()

/-- Where both rolls check their two numbers in the same way, only the dice are left. -/
theorem roll_of_rollDice {setting : Setting σ} {setting' : Setting σ'} {count sides : Float}
    (hsame : diceCount setting'.limits count = diceCount setting.limits count)
    (hcount : ∀ p, diceCount setting.limits count = .error p → allowed (.problem p))
    (hsides : ∀ p, faceCount sides = .error p → allowed (.problem p))
    (hdice : ∀ n faces, rel Float (rollDice setting n faces) (rollDice setting' n faces)) :
    rel Float (roll setting count sides) (roll setting' count sides) := by
  unfold roll
  rw [hsame]
  split
  · exact hdice _ _
  · exact h.sequence (h.enterError hcount) fun _ => h.sequence (h.enterError hsides) fun _ =>
      h.answer _

theorem unlessFailed {m : Eval σ Float stack} {m' : Eval σ' Float stack'} (hm : rel Float m m') :
    rel Float (unlessFailed m) (unlessFailed m') := by
  refine h.sequence h.flag fun isFailed => ?_
  cases isFailed with
  | false => exact hm
  | true => exact h.answer _

theorem noteUnlessFailed {step : Step} (hstep : allowed (.step step)) :
    rel Unit (noteUnlessFailed step) (noteUnlessFailed step) := by
  refine h.sequence h.flag fun isFailed => ?_
  cases isFailed with
  | false => exact h.step step hstep
  | true => exact h.answer _

theorem requireFinite (x : Float) {fragment : Text} (ha : PermitsEven allowed fragment) :
    rel Float (requireFinite x fragment) (requireFinite x fragment) := by
  refine h.unlessFailed ?_
  split_ifs
  · exact h.answer x
  · exact h.refuse (ha.whole rfl rfl)

/-! ## Operators -/

/-- Only one operator rolls dice. -/
theorem combine {setting : Setting σ} {setting' : Setting σ'} (o : Operator) {left right : Float}
    (hd : o = .dice → rel Float (roll setting left right) (roll setting' left right))
    {fragment : Text} (ha : PermitsEven allowed fragment) :
    rel Float (combine setting o left right fragment) (combine setting' o left right fragment) := by
  cases o with
  | plus => exact h.answer _
  | minus => exact h.answer _
  | times => exact h.answer _
  | divide =>
    show rel Float (Eval.divide left right fragment) (Eval.divide left right fragment)
    unfold Eval.divide
    split_ifs
    · exact h.refuse (ha.whole rfl rfl)
    · exact h.answer _
  | modulo =>
    show rel Float (Eval.modulo left right fragment) (Eval.modulo left right fragment)
    unfold Eval.modulo
    split_ifs
    · exact h.refuse (ha.whole rfl rfl)
    · exact h.refuse (ha.whole rfl rfl)
    · exact h.answer _
  | power =>
    show rel Float (raise left right fragment) (raise left right fragment)
    unfold raise
    split_ifs
    · exact h.refuse (ha.whole rfl rfl)
    · split
      · exact h.answer _
      · exact h.refuse (ha.whole rfl rfl)
      · exact h.refuse (ha.whole rfl rfl)
  | dice => exact hd rfl

theorem factorial (value : Float) {t : Text} (ha : PermitsEven allowed t) :
    rel Float (factorial value) (factorial value) := by
  unfold Eval.factorial
  split
  · exact h.refuse (ha.bare rfl rfl)
  · split
    · exact h.answer _
    · exact h.refuse (ha.bare rfl rfl)

/-! ## Numerals, constants and functions -/

theorem readLiteral {t : Text} (ha : PermitsEven allowed t) :
    rel Float (readLiteral t) (readLiteral t) := by
  unfold Eval.readLiteral
  cases takeNegative t with
  | mk negative body =>
    dsimp only
    split
    · exact h.refuse (ha.whole rfl rfl)
    · split
      · exact h.refuse (ha.whole rfl rfl)
      · exact h.answer _

theorem multiplierValue {t : Text} (ha : PermitsEven allowed t) :
    rel Float (multiplierValue t) (multiplierValue t) := by
  unfold Eval.multiplierValue
  split_ifs
  · exact h.answer _
  · exact h.readLiteral ha

section Calls

variable {multiplier expression : Text} (hm : multiplier ⊆ expression)
  (ha : PermitsEven allowed expression)
include hm ha

theorem finishCall {name : String} (hname : ∀ c ∈ name.toList, isBlank c = false)
    (arguments : List Float) (value : Float) :
    rel Float (finishCall name multiplier arguments value expression)
      (finishCall name multiplier arguments value expression) :=
  h.sequence (h.multiplierValue (ha.of_blanksFrom (.of_subset hm))) fun _ =>
    h.sequence (h.requireFinite _ ha) fun _ =>
      h.sequence (h.noteUnlessFailed (ha.called hname rfl rfl)) fun _ => h.answer _

theorem callUnary {f : UnaryFunction} (hf : f ∈ unaryFunctions) (x : Float) :
    rel Float (callUnary f multiplier x expression) (callUnary f multiplier x expression) := by
  have hname := isBlank_unaryName f hf
  unfold Eval.callUnary
  split_ifs
  · exact h.refuse (ha.named hname rfl rfl)
  · exact h.refuse (ha.named hname rfl rfl)
  · split
    · exact h.refuse (ha.named hname rfl rfl)
    · exact h.finishCall hm ha hname _ _

theorem callList {f : ListFunction} (hf : f ∈ listFunctions) (xs : List Float) :
    rel Float (callList f multiplier xs expression) (callList f multiplier xs expression) := by
  have hname := isBlank_listName f hf
  have admitted : rel Float (callList.admitted f multiplier xs expression)
      (callList.admitted f multiplier xs expression) := by
    unfold callList.admitted
    split_ifs
    · exact h.refuse (ha.named hname rfl rfl)
    · split
      · exact h.refuse (ha.named hname rfl rfl)
      · exact h.finishCall hm ha hname _ _
  unfold Eval.callList
  split
  · split_ifs
    · exact h.refuse (ha.named hname rfl rfl)
    · exact admitted
  · exact admitted

variable {recur : Recur σ stack} {recur' : Recur σ' stack'}

theorem applyUnary {f : UnaryFunction} (hf : f ∈ unaryFunctions) {argument : Text}
    (hx : rel Float (recur .application argument) (recur' .application argument)) :
    rel Float (applyUnary recur f multiplier argument expression)
      (applyUnary recur' f multiplier argument expression) := by
  have hname := isBlank_unaryName f hf
  unfold Eval.applyUnary
  split_ifs
  · exact h.refuse (ha.called hname rfl rfl)
  · exact h.refuse (ha.named hname rfl rfl)
  · exact h.sequence hx fun _ => h.unlessFailed (h.callUnary hm ha hf _)

omit hm ha in
theorem arguments {pieces : List Text}
    (hr : ∀ piece ∈ pieces, rel Float (recur .whole piece) (recur' .whole piece)) :
    rel (List Float) (pieces.mapM (recur .whole)) (pieces.mapM (recur' .whole)) := by
  induction pieces with
  | nil => exact h.answer _
  | cons piece pieces ih =>
    rw [List.mapM_cons, List.mapM_cons]
    have hlater := ih fun later hlater => hr later (List.mem_cons_of_mem piece hlater)
    exact h.sequence (hr piece List.mem_cons_self) fun _ => h.sequence hlater fun _ => h.answer _

theorem applyList {f : ListFunction} (hf : f ∈ listFunctions) {argument : Text}
    (hr : ∀ pieces, bracketedList? argument = some pieces →
      ∀ piece ∈ pieces, rel Float (recur .whole piece) (recur' .whole piece))
    (hx : rel Float (recur .application argument) (recur' .application argument)) :
    rel Float (applyList recur f multiplier argument expression)
      (applyList recur' f multiplier argument expression) := by
  unfold Eval.applyList
  split_ifs
  · exact h.refuse (ha.called (isBlank_listName f hf) rfl rfl)
  · split
    · next pieces hpieces =>
      have harguments := h.arguments (hr pieces hpieces)
      split_ifs
      · exact h.refuse (ha.whole rfl rfl)
      · exact h.sequence harguments fun _ => h.unlessFailed (h.callList hm ha hf _)
    · exact h.sequence hx fun _ => h.unlessFailed (h.callList hm ha hf _)

end Calls

variable {recur : Recur σ stack} {recur' : Recur σ' stack'}

section Parts

variable {t : Text} (ha : PermitsEven allowed t)
  (hr : ∀ entry u, HandsOn t entry u → rel Float (recur entry u) (recur' entry u))
include ha hr

theorem applyConstant : rel Float (applyConstant recur t) (applyConstant recur' t) := by
  unfold Eval.applyConstant
  split
  · exact h.readLiteral ha
  · next k hk =>
    have hname := isBlank_constantName k (mem_of_findConstant hk).1
    have hfinish : ∀ factor : Float, rel Float
        (Eval.unlessFailed do
          let result ← Eval.requireFinite (factor * k.value) t
          Eval.noteUnlessFailed (.constant k.name k.value t)
          return result)
        (Eval.unlessFailed do
          let result ← Eval.requireFinite (factor * k.value) t
          Eval.noteUnlessFailed (.constant k.name k.value t)
          return result) := fun factor =>
      h.unlessFailed (h.sequence (h.requireFinite _ ha) fun _ =>
        h.sequence (h.noteUnlessFailed (ha.called hname rfl rfl)) fun _ => h.answer _)
    dsimp only
    split_ifs
    · exact h.sequence (h.answer _) hfinish
    · exact h.sequence (hr _ _ (.part nofun (part_of_findConstant hk))) hfinish

theorem application : rel Float (application recur t) (application recur' t) := by
  refine h.unlessFailed ?_
  split
  next multiplier rest htake =>
  have hrest : rest = (takeMultiplier t).2 := by rw [htake]
  have hmultiplier : multiplier ⊆ t := by
    have hsubset := takeMultiplier_subset t
    rw [htake] at hsubset
    exact hsubset
  split
  · next f hf =>
    have hargument : Part (rest.drop f.name.length) t :=
      hrest ▸ part_of_findListFunction (hrest ▸ hf)
    refine h.applyList hmultiplier ha (mem_of_findListFunction hf).1 ?_ ?_
    · exact fun pieces hpieces piece hpiece => hr _ _ (.piece hargument hpieces hpiece)
    · exact hr _ _ (.part nofun hargument)
  · split
    · next f hf =>
      have hargument := part_of_findUnaryFunction (hrest ▸ hf)
      exact h.applyUnary hmultiplier ha (mem_of_findUnaryFunction hf).1
        (hr _ _ (.part nofun (hrest ▸ hargument)))
    · exact h.applyConstant ha hr

theorem factorialTier : rel Float (factorialTier recur t) (factorialTier recur' t) := by
  refine h.unlessFailed ?_
  split_ifs with hlast hempty
  · exact h.application ha hr
  · exact h.refuse (ha.whole rfl rfl)
  · have hne : t ≠ [] := by
      rintro rfl
      exact hempty rfl
    exact h.sequence (hr _ _ (.part nofun (.dropLast hne))) fun _ => h.unlessFailed
      (h.sequence (h.factorial _ ha) fun _ =>
        h.sequence (h.noteUnlessFailed (ha.whole rfl rfl)) fun _ => h.answer _)

end Parts

/-! ## Tiers of binary operators -/

theorem operand (neutral : Float) {t : Text}
    (hr : rel Float (recur .operand t) (recur' .operand t)) :
    rel Float (operand recur neutral t) (operand recur' neutral t) := by
  unfold Eval.operand
  split_ifs
  · exact h.answer _
  · exact hr

variable {setting : Setting σ} {setting' : Setting σ'}

theorem foldCuts (neutral left : Float) {cuts : List Cut}
    (ha : ∀ cut ∈ cuts, PermitsEven allowed cut.fragment)
    (hr : ∀ cut ∈ cuts, rel Float (recur .operand cut.right) (recur' .operand cut.right))
    (hd : ∀ cut ∈ cuts, cut.operator = .dice →
      ∀ count sides, rel Float (roll setting count sides) (roll setting' count sides)) :
    rel Float (foldCuts setting recur neutral left cuts)
      (foldCuts setting' recur' neutral left cuts) := by
  induction cuts generalizing left with
  | nil => exact h.answer left
  | cons cut rest ih =>
    have hlater := fun result => ih result (fun c hc => ha c (List.mem_cons_of_mem cut hc))
      (fun c hc => hr c (List.mem_cons_of_mem cut hc))
      (fun c hc => hd c (List.mem_cons_of_mem cut hc))
    have hcut := ha cut List.mem_cons_self
    have hsymbol : ∀ c ∈ [cut.operator.symbol], isBlank c = false := by
      simpa using isBlank_symbol cut.operator
    refine h.sequence (h.operand _ (hr cut List.mem_cons_self)) fun _ => h.unlessFailed ?_
    refine h.sequence (h.combine _ (fun hdice => ?_) hcut) fun result => h.unlessFailed ?_
    · exact hd cut List.mem_cons_self hdice _ _
    · refine h.sequence (h.step _ (hcut _ ⟨_, rfl, ?_⟩ rfl)) fun _ => hlater _
      simpa using ⟨.of_solid hsymbol, BlanksFrom.refl cut.fragment⟩

section Parts

variable {t : Text} (ha : PermitsEven allowed t)
  (hr : ∀ entry u, HandsOn t entry u → rel Float (recur entry u) (recur' entry u))
  (hd : 'd' ∈ t → ∀ count sides, rel Float (roll setting count sides) (roll setting' count sides))
include ha hr hd

theorem splitTier (tier : Tier) {next : Text → Eval σ Float stack}
    {next' : Text → Eval σ' Float stack'}
    (hn : rel Float (next t) (next' t)) :
    rel Float (splitTier setting recur tier next t) (splitTier setting' recur' tier next' t) := by
  refine h.unlessFailed ?_
  split
  · exact hn
  · next first later hpoints =>
    have hfirst : first < t.length :=
      lt_length_of_mem_splitPoints (hpoints ▸ List.mem_cons_self)
    have hcuts : ∀ cut ∈ cuts t (first :: later), Part cut.right t ∧
        (cut.operator = .dice → 'd' ∈ t) := by
      intro cut hcut
      rw [← hpoints] at hcut
      exact part_of_mem_cuts hcut
    refine h.sequence (h.operand _ (hr _ _ (.part nofun (.take hfirst)))) fun _ =>
      h.foldCuts _ _ ?_ ?_ ?_
    · exact fun cut hcut => ha.of_blanksFrom (.of_subset (isPrefix_of_mem_cuts hcut).subset)
    · exact fun cut hcut => hr _ _ (.part nofun (hcuts cut hcut).1)
    · exact fun cut hcut hdice => hd ((hcuts cut hcut).2 hdice)

theorem operators : rel Float (operators setting recur t) (operators setting' recur' t) :=
  h.splitTier ha hr hd _ (h.splitTier ha hr hd _ (h.splitTier ha hr hd _ (h.splitTier ha hr hd _
    (h.factorialTier ha hr))))

end Parts

/-! ## Groups -/

theorem refuseAt (site : Site) {p : Problem} (hp : allowed (.problem p)) :
    rel Text (refuseAt site p) (refuseAt site p) :=
  h.sequence (h.problem p hp) fun _ => h.answer _

/-- Looking for the neighbours of a group may be a fault. -/
theorem foldGroup (site : Site) {inner : Text} (hsite : Permits allowed site.whole)
    (ha : Permits allowed inner)
    (hleft : rel (Option Char) (Eval.ofExcept site.leftNeighbour)
      (Eval.ofExcept site.leftNeighbour))
    (hright : rel (Option Char) (Eval.ofExcept site.rightNeighbour)
      (Eval.ofExcept site.rightNeighbour))
    (hr : rel Float (recur .whole inner) (recur' .whole inner)) :
    rel Text (foldGroup recur site inner) (foldGroup recur' site inner) := by
  have hgroup : BlanksFrom inner ('(' :: inner ++ [')']) := .group (.refl inner)
  unfold Eval.foldGroup
  dsimp only
  split_ifs
  · exact h.refuseAt _ (hsite.whole rfl)
  · exact h.refuseAt _ (ha.quoting hgroup rfl)
  · refine h.sequence (h.step _ (ha _ ⟨_, rfl, ?_⟩)) fun _ => h.answer _
    simpa using ⟨hgroup, .bracketed (.refl inner)⟩
  · refine h.sequence hr fun value => h.sequence h.flag fun isFailed => ?_
    split_ifs
    · exact h.answer _
    · exact h.refuseAt _ (ha.quoting hgroup rfl)
    · exact h.sequence hleft fun _ => h.sequence hright fun _ =>
        h.sequence (h.step _ (ha.quoting hgroup rfl)) fun _ => h.answer _

section Folding

variable {t : Text} (ha : ∀ folded, FoldsTo t folded → Permits allowed folded)
  (hr : ∀ entry u, Reenters t u → rel Float (recur entry u) (recur' entry u))
include ha hr

theorem foldGroups (rounds : Nat) :
    rel Text (foldGroups recur rounds t) (foldGroups recur' rounds t) := by
  induction rounds generalizing t with
  | zero => exact h.answer t
  | succ rounds ih =>
    refine h.sequence h.flag fun isFailed => ?_
    split_ifs
    · exact h.answer t
    · split
      · exact h.answer t
      · next head after hcloser =>
        split
        · exact h.sequence (h.problem _ ((ha t .refl).whole rfl)) fun _ => h.answer t
        · next before inner hopener =>
          obtain rfl : t = before ++ '(' :: (inner ++ ')' :: after) := by
            rw [eq_of_splitAtCloser hcloser, eq_of_splitAtLastOpener hopener]
            simp
          have hpart := part_of_group before inner after
          have hwhole : Permits allowed (Site.between before inner after).whole := by
            refine (ha _ .refl).of_blanksFrom (.of_subset ?_)
            simp [Site.between]
          have hround := h.foldGroup (.between before inner after) hwhole
            ((ha _ .refl).of_blanksFrom (.of_subset hpart.inside.subset)) (h.answer _) (h.answer _)
            (hr .whole inner (.of_part hpart))
          -- the round leaves the text as it is, or it is one round of folding
          refine h.sequence_of hround fun folded hfolded => ?_
          rcases hfolded.elim answers_foldGroup answers_foldGroup with rfl | hstep
          · exact ih ha hr
          · exact ih (fun later hlater => ha later (.head hstep hlater))
              fun entry u hu => hr entry u (.of_folds (.single hstep) hu)

theorem resolveGroups : rel Text (resolveGroups recur t) (resolveGroups recur' t) := by
  have hround := h.problem (.unbalancedParentheses t) ((ha t .refl).whole rfl)
  have hsquare := h.problem (.unbalancedBrackets t) ((ha t .refl).whole rfl)
  by_cases heven : t.count '(' = t.count ')'
  · rw [resolveGroups_of_even heven, resolveGroups_of_even heven]
    split_ifs
    · exact h.foldGroups ha hr _
    · exact h.sequence hsquare fun _ => h.answer t
  · rw [resolveGroups_of_uneven heven, resolveGroups_of_uneven heven]
    split_ifs
    · exact h.sequence hround fun _ => h.answer t
    · exact h.sequence hround fun _ => h.sequence hsquare fun _ => h.answer t

/-! ## The evaluator -/

/-- What is evaluated from an entry on is related if all texts that are handed on are, and the
rolls if any text that comes of folding has a `d`. -/
theorem evalStep (hd : ∀ folded, FoldsTo t folded → 'd' ∈ folded →
      ∀ count sides, rel Float (roll setting count sides) (roll setting' count sides))
    (entry : Entry) :
    rel Float (Eval.step setting recur entry t) (Eval.step setting' recur' entry t) := by
  have hparts : ∀ entry u, HandsOn t entry u → rel Float (recur entry u) (recur' entry u) :=
    fun entry u hu => hr entry u (.of_part hu.part_of)
  have hwhole := (ha t .refl).even
  cases entry with
  | whole =>
    refine h.sequence_of (h.resolveGroups ha hr) fun flat hflat => h.unlessFailed ?_
    have hfolds := hflat.elim answers_resolveGroups answers_resolveGroups
    exact h.operators (ha flat hfolds).even
      (fun entry u hu => hr entry u ⟨flat, hfolds, hu.part_of⟩) (hd flat hfolds)
  | operand => exact h.operators hwhole hparts (hd t .refl)
  | factorial => exact h.factorialTier hwhole hparts
  | application => exact h.application hwhole hparts

end Folding

theorem evaluateBare (hl : setting.limits.maxLength = setting'.limits.maxLength) {t : Text}
    (ha : Permits allowed t) (hv : rel Float (evaluate setting t) (evaluate setting' t)) :
    rel Float (evaluateBare setting t) (evaluateBare setting' t) := by
  unfold Eval.evaluateBare
  rw [hl]
  split_ifs
  · exact h.sequence (h.problem _ (ha.bare rfl)) fun _ => h.answer _
  · exact h.sequence (h.problem _ (ha.bare rfl)) fun _ => h.answer _
  · refine h.sequence hv fun value => h.sequence h.flag fun isFailed => ?_
    dsimp only
    split_ifs
    · exact h.sequence (h.problem _ (ha.bare rfl)) fun _ => h.answer _
    · exact h.answer _

end Respects

/-- Equal parts make equal evaluations. -/
theorem respects_eq {σ : Type} {stack : Stack} :
    Respects (fun _ => True) fun α (m m' : Eval σ α stack) => m = m' where
  answer _ := rfl
  sequence hm hk := by rw [hm, funext hk]
  flag := rfl
  problem _ _ := rfl
  step _ _ := rfl

/-! ## Relations that rolls and nested evaluations respect -/

namespace Congruence

variable {σ σ' : Type} {stack stack' : Stack} {setting : Setting σ} {setting' : Setting σ'}
  {rel : (α : Type) → Eval σ α stack → Eval σ' α stack' → Prop} (h : Congruence setting setting' rel)
include h

theorem combine (o : Operator) (left right : Float) (fragment : Text) :
    rel Float (combine setting o left right fragment) (combine setting' o left right fragment) :=
  h.toRespects.combine o (fun _ => h.dice left right) (.all fragment)

section Recur

variable {recur : Recur σ stack} {recur' : Recur σ' stack'}
  (hr : ∀ entry t, rel Float (recur entry t) (recur' entry t))
include hr

theorem operand (neutral : Float) (t : Text) :
    rel Float (operand recur neutral t) (operand recur' neutral t) :=
  h.toRespects.operand neutral (hr .operand t)

theorem factorialTier (t : Text) : rel Float (factorialTier recur t) (factorialTier recur' t) :=
  h.toRespects.factorialTier (.all t) fun entry u _ => hr entry u

theorem splitTier (tier : Tier) {next : Text → Eval σ Float stack}
    {next' : Text → Eval σ' Float stack'}
    (hn : ∀ t, rel Float (next t) (next' t)) (t : Text) :
    rel Float (splitTier setting recur tier next t) (splitTier setting' recur' tier next' t) :=
  h.toRespects.splitTier (.all t) (fun entry u _ => hr entry u) (fun _ => h.dice) tier (hn t)

theorem operators (t : Text) :
    rel Float (operators setting recur t) (operators setting' recur' t) :=
  h.toRespects.operators (.all t) (fun entry u _ => hr entry u) fun _ => h.dice

theorem foldGroups (rounds : Nat) (t : Text) :
    rel Text (foldGroups recur rounds t) (foldGroups recur' rounds t) :=
  h.toRespects.foldGroups (fun folded _ => .all folded) (fun entry u _ => hr entry u) rounds

theorem evalStep (entry : Entry) (t : Text) :
    rel Float (Eval.step setting recur entry t) (Eval.step setting' recur' entry t) :=
  h.toRespects.evalStep (fun folded _ => .all folded) (fun entry u _ => hr entry u)
    (fun _ _ _ => h.dice) entry

end Recur

/-- Two nested evaluations are related, the second with some levels more, if they are where
the first has none left. -/
theorem descend_add (extra : Nat)
    (hz : ∀ entry t, rel Float (descend setting 0 entry t) (descend setting' extra entry t))
    (levels : Nat) (entry : Entry) (t : Text) :
    rel Float (descend setting levels entry t) (descend setting' (levels + extra) entry t) := by
  induction levels generalizing entry t with
  | zero => rw [Nat.zero_add]; exact hz entry t
  | succ levels ih =>
    rw [Nat.succ_add]
    exact h.unlessFailed (h.deeper (h.evalStep ih entry t))

theorem descend (hd : setting.limits.maxDepth = setting'.limits.maxDepth) (levels : Nat)
    (entry : Entry) (t : Text) :
    rel Float (descend setting levels entry t) (descend setting' levels entry t) := by
  refine h.descend_add 0 (fun entry t => ?_) levels entry t
  unfold Eval.descend
  rw [hd]
  exact h.unlessFailed (h.refuse trivial)

/-- Evaluations under limits on depth and length that agree are related. -/
theorem evaluateBare (hd : setting.limits.maxDepth = setting'.limits.maxDepth)
    (hl : setting.limits.maxLength = setting'.limits.maxLength) (t : Text) :
    rel Float (evaluateBare setting t) (evaluateBare setting' t) := by
  refine h.toRespects.evaluateBare hl (.all t) ?_
  unfold Eval.evaluate topmost
  rw [hd]
  exact h.descend hd _ _ _

end Congruence

end Reckoner

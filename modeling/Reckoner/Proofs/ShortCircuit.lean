import Reckoner.Proofs.Account

/-!
# The first problem is the last entry

Steps do not stop an evaluation when they enter a problem; each step looks at the flag
when it comes back from another one. These checks are complete: a step that starts in a
failed state changes nothing (`Stops.idle`), and a step that fails adds nothing after the
problems of the check that failed (`Settles`). Where a step ends in a fault instead, be it that
the stack is exhausted, there has been no problem (`Quiet`): behind one nothing needs more room.
The contract is stated for one step, carried through every tier, and closed by induction on the
levels of nesting.
-/

namespace Reckoner

open Eval

/-! ## The problems of one check -/

/-- The problems that a single check enters: one at most, save for the two checks that look
at two things before they give up. -/
inductive OneCheck : List Problem → Prop where
  | passed : OneCheck []
  | single (p : Problem) : OneCheck [p]
  | bothBrackets (t : Text) : OneCheck [.unbalancedParentheses t, .unbalancedBrackets t]
  | bothDice (count : Float) (most : Int) (sides : Float) :
    OneCheck [.tooManyDice count most, .noFaces sides]

namespace OneCheck

variable {problems : List Problem}

theorem length_le (h : OneCheck problems) : problems.length ≤ 2 := by
  cases h <;> simp

theorem kind_eq (h : OneCheck problems) {p q : Problem} (hp : p ∈ problems) (hq : q ∈ problems) :
    p.kind = q.kind := by
  cases h with
  | passed => cases hp
  | single r =>
    rw [List.mem_singleton] at hp hq
    rw [hp, hq]
  | bothBrackets | bothDice =>
    rw [List.mem_pair] at hp hq
    rcases hp with rfl | rfl <;> rcases hq with rfl | rfl <;> rfl

end OneCheck

/-! ## What a step adds -/

variable {σ : Type} {stack : Stack}

/-- No entry is a problem. -/
def Untroubled (entries : List Event) : Prop := ∀ e ∈ entries, e.problem? = none

theorem untroubled_nil : Untroubled [] := by
  intro e he
  cases he

theorem untroubled_append {xs ys : List Event} (hx : Untroubled xs) (hy : Untroubled ys) :
    Untroubled (xs ++ ys) := by
  intro e he
  rcases List.mem_append.mp he with he | he
  · exact hx e he
  · exact hy e he

theorem untroubled_singleton {e : Event} (h : e.problem? = none) : Untroubled [e] := by
  intro e' he
  rw [List.mem_singleton.mp he]
  exact h

/-- Between two states came entries that are no problems. -/
def Quiet (s t : Progress σ stack) : Prop :=
  ∃ done, t.ledger.events = s.ledger.events ++ done ∧ Untroubled done

/-- Between two states came entries that are no problems, and after these nothing but the
problems of one check, with the flag up. -/
def Settles (s t : Progress σ stack) : Prop :=
  ∃ done problems, t.ledger.events = s.ledger.events ++ done ++ problems.map .problem ∧
    Untroubled done ∧ OneCheck problems ∧ (problems ≠ [] → t.failed = true)

namespace Quiet

variable {s t u : Progress σ stack}

theorem of_same (h : t.ledger.events = s.ledger.events) : Quiet s t :=
  ⟨[], by rw [h, List.append_nil], untroubled_nil⟩

theorem of_entry {e : Event} (h : t.ledger.events = s.ledger.events ++ [e])
    (he : e.problem? = none) : Quiet s t :=
  ⟨[e], h, untroubled_singleton he⟩

theorem trans (h1 : Quiet s t) (h2 : Quiet t u) : Quiet s u := by
  obtain ⟨xs, hx, hxs⟩ := h1
  obtain ⟨ys, hy, hys⟩ := h2
  exact ⟨xs ++ ys, by rw [hy, hx, List.append_assoc], untroubled_append hxs hys⟩

theorem settles (h : Quiet s t) : Settles s t := by
  obtain ⟨done, hevents, hdone⟩ := h
  exact ⟨done, [], by simpa using hevents, hdone, .passed, fun hne => absurd rfl hne⟩

end Quiet

namespace Settles

variable {s t u : Progress σ stack}

theorem refl (s : Progress σ stack) : Settles s s := (Quiet.of_same rfl).settles

theorem of_problems {problems : List Problem}
    (h : t.ledger.events = s.ledger.events ++ problems.map .problem) (hc : OneCheck problems)
    (ht : t.failed = true) : Settles s t :=
  ⟨[], problems, by simpa using h, untroubled_nil, hc, fun _ => ht⟩

/-- With the flag down there has been no problem so far. -/
theorem quiet (h : Settles s t) (ht : t.failed = false) : Quiet s t := by
  obtain ⟨done, problems, hevents, hdone, -, hflag⟩ := h
  have hnone : problems = [] := by
    by_contra hne
    exact Bool.false_ne_true (ht.symm.trans (hflag hne))
  exact ⟨done, by simpa [hnone] using hevents, hdone⟩

/-- Without a problem so far, a run can go on. -/
theorem trans (h1 : Settles s t) (ht : t.failed = false) (h2 : Settles t u) : Settles s u := by
  obtain ⟨xs, hx, hxs⟩ := h1.quiet ht
  obtain ⟨ys, later, hy, hys, hcheck, hflag⟩ := h2
  refine ⟨xs ++ ys, later, ?_, untroubled_append hxs hys, hcheck, hflag⟩
  rw [hy, hx]
  simp

end Settles

/-! ## Contracts of a step -/

/-- A step that adds nothing after a problem. If it fails, its answer is a `neutral` one; a
fault comes before any problem. -/
structure Settling {α : Type} (neutral : α → Prop) (m : Eval σ α stack) : Prop where
  ok : ∀ {s t a}, s.failed = false → m s = .ok a t → Settles s t ∧ (t.failed = true → neutral a)
  fault : ∀ {s t fault}, s.failed = false → m s = .error fault t → Quiet s t

/-- A step that can follow any other: once there is a problem it does nothing at all. -/
structure Stops {α : Type} (neutral : α → Prop) (m : Eval σ α stack) : Prop where
  settling : Settling neutral m
  idle : ∀ {s}, s.failed = true → ∃ a, m s = .ok a s ∧ neutral a

/-- The answer of every evaluation that fails. -/
def IsOne (x : Float) : Prop := x = 1.0

variable {α β : Type} {neutral : α → Prop} {neutral' : β → Prop}

theorem Settling.answer (a : α) : Settling neutral (pure a : Eval σ α stack) where
  ok {s t b} hs h := by
    cases h
    refine ⟨.refl s, fun ht => ?_⟩
    rw [hs] at ht
    cases ht
  fault _ h := by cases h

/-- Entering one problem and giving up. -/
theorem Settling.enter_return (p : Problem) {a : α} (ha : neutral a) :
    Settling neutral (do
      enter p
      return a : Eval σ α stack) where
  ok _ h := by
    obtain ⟨_, t, h1, h2⟩ := bind_eq_ok.mp h
    obtain ⟨-, rfl⟩ := enter_eq_ok.mp h1
    cases h2
    exact ⟨.of_problems rfl (.single p) rfl, fun _ => ha⟩
  fault _ h := by
    rcases bind_eq_error.mp h with h1 | ⟨_, t, -, h2⟩
    · obtain ⟨-, rfl | rfl⟩ := enter_eq_error h1
      · exact .of_same rfl
      · exact .of_same rfl
    · cases h2

/-- Entering the two problems of one check: where there is room for the first one there is
room for the second. -/
theorem Settling.enter_both {p q : Problem} (hcheck : OneCheck [p, q]) {a : α} (ha : neutral a) :
    Settling neutral (do
      enter p
      enter q
      return a : Eval σ α stack) where
  ok {s u b} _ h := by
    obtain ⟨_, t, h1, h2⟩ := bind_eq_ok.mp h
    obtain ⟨_, v, h2, h3⟩ := bind_eq_ok.mp h2
    obtain ⟨-, rfl⟩ := enter_eq_ok.mp h1
    obtain ⟨-, rfl⟩ := enter_eq_ok.mp h2
    cases h3
    refine ⟨.of_problems ?_ hcheck rfl, fun _ => ha⟩
    simp
  fault {s u fault} _ h := by
    rcases bind_eq_error.mp h with h1 | ⟨_, t, h1, h2⟩
    · obtain ⟨-, rfl | rfl⟩ := enter_eq_error h1
      · exact .of_same rfl
      · exact .of_same rfl
    · obtain ⟨hroom, rfl⟩ := enter_eq_ok.mp h1
      have hroom' : RoomForProblem (s.add (.problem p)) := hroom
      rw [bind_of_ok (enter_of_room hroom' q)] at h2
      cases h2

theorem Settling.refuse (p : Problem) : Settling IsOne (refuse p : Eval σ Float stack) :=
  .enter_return p rfl

theorem Settling.bind {m : Eval σ α stack} {k : α → Eval σ β stack} (hm : Settling neutral m)
    (hk : ∀ a, Stops neutral' (k a)) : Settling neutral' (m >>= k) where
  ok {s u b} hs h := by
    obtain ⟨a, t, h1, h2⟩ := bind_eq_ok.mp h
    have hst := (hm.ok hs h1).1
    -- behind a problem the second step is idle, otherwise its own contract carries on
    by_cases ht : t.failed = true
    · obtain ⟨c, hc, hneutral⟩ := (hk a).idle ht
      rw [hc] at h2
      cases h2
      exact ⟨hst, fun _ => hneutral⟩
    · rw [Bool.not_eq_true] at ht
      have htu := (hk a).settling.ok ht h2
      exact ⟨hst.trans ht htu.1, htu.2⟩
  fault {s u fault} hs h := by
    rcases bind_eq_error.mp h with h1 | ⟨a, t, h1, h2⟩
    · exact hm.fault hs h1
    have hst := (hm.ok hs h1).1
    by_cases ht : t.failed = true
    · obtain ⟨c, hc, -⟩ := (hk a).idle ht
      rw [hc] at h2
      cases h2
    · rw [Bool.not_eq_true] at ht
      exact (hst.quiet ht).trans ((hk a).settling.fault ht h2)

theorem Stops.bind {m : Eval σ α stack} {k : α → Eval σ β stack} (hm : Stops neutral m)
    (hk : ∀ a, Stops neutral' (k a)) : Stops neutral' (m >>= k) where
  settling := hm.settling.bind hk
  idle {s} hs := by
    obtain ⟨a, ha, -⟩ := hm.idle hs
    obtain ⟨b, hb, hneutral⟩ := (hk a).idle hs
    exact ⟨b, by rw [bind_of_ok ha, hb], hneutral⟩

/-- What ends without a problem has started without one. -/
theorem Stops.clear {m : Eval σ α stack} (hm : Stops neutral m) {s u : Progress σ stack} {a : α}
    (h : m s = .ok a u) (hu : u.failed = false) : s.failed = false := by
  by_contra hs
  obtain ⟨b, hb, -⟩ := hm.idle (by simpa using hs)
  rw [hb] at h
  cases h
  exact hs hu

/-- An answer without a step can follow any other. -/
theorem Stops.answer {a : α} (ha : neutral a) : Stops neutral (pure a : Eval σ α stack) where
  settling := .answer a
  idle _ := ⟨a, rfl, ha⟩

/-- Asking the flag first makes a step one that can follow any other. -/
theorem Settling.unless {m : Eval σ α stack} {a : α} (ha : neutral a) (hm : Settling neutral m) :
    Stops neutral (do if ← failed then return a else m) where
  settling :=
    { ok := fun hs h => by
        rw [failed_bind, hs] at h
        exact hm.ok hs h
      fault := fun hs h => by
        rw [failed_bind, hs] at h
        exact hm.fault hs h }
  idle hs := by
    rw [failed_bind, hs]
    exact ⟨a, rfl, ha⟩

theorem Settling.guarded {m : Eval σ Float stack} (hm : Settling IsOne m) :
    Stops IsOne (unlessFailed m) :=
  hm.unless rfl

/-- A check that enters its problem only if there is none yet. -/
theorem Stops.checked (p : Problem) (fails : Bool) {a : α} (ha : neutral a) :
    Stops neutral (do
      if !(← failed) && fails then enter p
      return a : Eval σ α stack) where
  settling := by
    cases fails with
    | false =>
      exact
        { ok := fun hs h => by
            rw [failed_bind, hs] at h
            exact (Settling.answer a).ok hs h
          fault := fun hs h => by
            rw [failed_bind, hs] at h
            cases h }
    | true =>
      exact
        { ok := fun hs h => by
            rw [failed_bind, hs] at h
            exact (Settling.enter_return p ha).ok hs h
          fault := fun hs h => by
            rw [failed_bind, hs] at h
            exact (Settling.enter_return p ha).fault hs h }
  idle hs := ⟨a, by rw [failed_bind, hs]; rfl, ha⟩

theorem Settling.note_bind (step : Step) {k : Unit → Eval σ α stack}
    (hk : Settling neutral (k ())) : Settling neutral (note step >>= k) where
  ok {s t a} hs h := by
    rw [Eval.note_bind] at h
    have hadd : (s.add (.step step)).failed = false := hs
    have ht := hk.ok hadd h
    have hstep : Quiet s (s.add (.step step)) := .of_entry rfl rfl
    exact ⟨hstep.settles.trans hadd ht.1, ht.2⟩
  fault {s t fault} hs h := by
    rw [Eval.note_bind] at h
    have hstep : Quiet s (s.add (.step step)) := .of_entry rfl rfl
    exact hstep.trans (hk.fault (s := s.add (.step step)) hs h)

/-- The step that is noted at the end is noted only if nothing has failed. -/
theorem Settling.noted {m : Eval σ Float stack} (hm : Settling IsOne m) (step : Float → Step) :
    Settling IsOne (do
      let x ← m
      noteUnlessFailed (step x)
      return x) where
  ok {s u b} hs h := by
    obtain ⟨a, t, h1, h2⟩ := bind_eq_ok.mp h
    obtain ⟨hst, hone⟩ := hm.ok hs h1
    rw [bind_of_ok (noteUnlessFailed_apply (step a) t)] at h2
    cases h2
    by_cases ht : t.failed = true
    · rw [if_pos ht]
      exact ⟨hst, fun _ => hone ht⟩
    · rw [if_neg ht]
      rw [Bool.not_eq_true] at ht
      have hstep : Quiet t (t.add (.step (step b))) := .of_entry rfl rfl
      refine ⟨((hst.quiet ht).trans hstep).settles, fun hu => ?_⟩
      rw [Progress.failed_add_step, ht] at hu
      cases hu
  fault {s u fault} hs h := by
    rcases bind_eq_error.mp h with h1 | ⟨a, t, -, h2⟩
    · exact hm.fault hs h1
    · rw [bind_of_ok (noteUnlessFailed_apply (step a) t)] at h2
      cases h2

theorem Stops.noted {m : Eval σ Float stack} (hm : Stops IsOne m) (step : Float → Step) :
    Stops IsOne (do
      let x ← m
      noteUnlessFailed (step x)
      return x) where
  settling := hm.settling.noted step
  idle {s} hs := by
    obtain ⟨a, ha, hone⟩ := hm.idle hs
    refine ⟨a, ?_, hone⟩
    rw [bind_of_ok ha, bind_of_ok (noteUnlessFailed_apply (step a) s), if_pos hs]
    rfl

theorem Settling.nested {m : Eval σ α stack} (hm : Settling neutral m) :
    Settling neutral (nested m) where
  ok {s u a} hs h := by
    obtain ⟨-, t, ht, rfl⟩ := nested_eq_ok.mp h
    have hst := hm.ok (s := deeper s) hs ht
    exact hst
  fault {s u fault} hs h := by
    rcases nested_eq_error h with ⟨-, rfl⟩ | ⟨t, ht, rfl⟩
    · exact .of_same rfl
    · have hst := hm.fault (s := deeper s) hs ht
      exact hst

/-! ## Rolls and operators -/

theorem diceCount_eq_error {limits : Limits} {count : Float} {p : Problem}
    (h : diceCount limits count = .error p) : p = .tooManyDice count limits.maxDice := by
  unfold diceCount at h
  split at h
  · split_ifs at h
    cases h
    rfl
  · cases h
    rfl

theorem faceCount_eq_error {sides : Float} {p : Problem} (h : faceCount sides = .error p) :
    p = .noFaces sides := by
  unfold faceCount at h
  split at h
  · split_ifs at h
    cases h
    rfl
  · cases h
    rfl

section Tiers

variable {setting : Setting σ}

theorem settling_rollDice (count : Int) (faces : Nat) :
    Settling IsOne (rollDice setting count faces : Eval σ Float stack) := by
  have hquiet : ∀ s : Progress σ stack, Quiet s (afterRoll setting count faces s) :=
    fun s => .of_entry (e := .roll (rollLine setting count faces s)) rfl rfl
  constructor
  · intro s t a hs h
    rw [rollDice_apply] at h
    cases htotal : intToDouble? (rollTotal setting count faces s) with
    | none => rw [htotal] at h; cases h
    | some x =>
      rw [htotal] at h
      cases h
      refine ⟨(hquiet s).settles, fun ht => ?_⟩
      rw [failed_afterRoll, hs] at ht
      cases ht
  · intro s t fault _ h
    rw [rollDice_apply] at h
    cases htotal : intToDouble? (rollTotal setting count faces s) with
    | some x => rw [htotal] at h; cases h
    | none =>
      rw [htotal] at h
      cases h
      exact hquiet s

/-- Both checks of a roll are made before anything is drawn. -/
theorem settling_roll (count sides : Float) :
    Settling IsOne (roll setting count sides : Eval σ Float stack) := by
  unfold Eval.roll
  cases hc : diceCount setting.limits count with
  | ok n =>
    cases hf : faceCount sides with
    | ok faces => exact settling_rollDice n faces
    | error p => exact .enter_return p rfl
  | error p =>
    cases hf : faceCount sides with
    | ok faces => exact .enter_return p rfl
    | error q =>
      -- the check of the faces is made although that of the dice has failed
      rw [diceCount_eq_error hc, faceCount_eq_error hf]
      exact .enter_both (.bothDice count setting.limits.maxDice sides) rfl

theorem settling_combine (o : Operator) (left right : Float) (fragment : Text) :
    Settling IsOne (combine setting o left right fragment : Eval σ Float stack) := by
  cases o with
  | plus => exact .answer _
  | minus => exact .answer _
  | times => exact .answer _
  | divide =>
    show Settling IsOne (Eval.divide left right fragment : Eval σ Float stack)
    unfold Eval.divide
    split_ifs
    · exact .refuse _
    · exact .answer _
  | modulo =>
    show Settling IsOne (Eval.modulo left right fragment : Eval σ Float stack)
    unfold Eval.modulo
    split_ifs
    · exact .refuse _
    · exact .refuse _
    · exact .answer _
  | power =>
    show Settling IsOne (raise left right fragment : Eval σ Float stack)
    unfold raise
    split_ifs
    · exact .refuse _
    · split
      · exact .answer _
      · exact .refuse _
      · exact .refuse _
  | dice => exact settling_roll left right

theorem settling_factorial (value : Float) :
    Settling IsOne (factorial value : Eval σ Float stack) := by
  unfold Eval.factorial
  split
  · exact .refuse _
  · split
    · exact .answer _
    · exact .refuse _

/-! ## Numerals, constants and functions -/

theorem settling_readLiteral (t : Text) :
    Settling IsOne (readLiteral t : Eval σ Float stack) := by
  unfold Eval.readLiteral
  dsimp only
  split
  · exact .refuse _
  · split
    · exact .refuse _
    · exact .answer _

theorem settling_multiplierValue (t : Text) :
    Settling IsOne (multiplierValue t : Eval σ Float stack) := by
  unfold Eval.multiplierValue
  split_ifs
  · exact .answer _
  · exact settling_readLiteral t

theorem stops_requireFinite (x : Float) (fragment : Text) :
    Stops IsOne (requireFinite x fragment : Eval σ Float stack) := by
  refine Settling.guarded ?_
  split_ifs
  · exact .answer x
  · exact .refuse _

theorem settling_finishCall (name : String) (multiplier : Text) (arguments : List Float)
    (value : Float) (expression : Text) :
    Settling IsOne
      (finishCall name multiplier arguments value expression : Eval σ Float stack) :=
  (settling_multiplierValue multiplier).bind fun factor =>
    (stops_requireFinite (factor * value) expression).noted fun _ =>
      .call name arguments value expression

theorem settling_callUnary (f : UnaryFunction) (multiplier : Text) (x : Float)
    (expression : Text) :
    Settling IsOne (callUnary f multiplier x expression : Eval σ Float stack) := by
  unfold Eval.callUnary
  split_ifs
  · exact .refuse _
  · exact .refuse _
  · split
    · exact .refuse _
    · exact settling_finishCall _ _ _ _ _

theorem settling_callList (f : ListFunction) (multiplier : Text) (xs : List Float)
    (expression : Text) :
    Settling IsOne (callList f multiplier xs expression : Eval σ Float stack) := by
  have admitted :
      Settling IsOne (callList.admitted f multiplier xs expression : Eval σ Float stack) := by
    unfold callList.admitted
    split_ifs
    · exact .refuse _
    · split
      · exact .refuse _
      · exact settling_finishCall _ _ _ _ _
  unfold Eval.callList
  split
  · split_ifs
    · exact .refuse _
    · exact admitted
  · exact admitted

variable {recur : Recur σ stack} (hr : ∀ entry t, Stops IsOne (recur entry t))
include hr

theorem settling_applyUnary (f : UnaryFunction) (multiplier argument expression : Text) :
    Settling IsOne (applyUnary recur f multiplier argument expression) := by
  unfold Eval.applyUnary
  split_ifs
  · exact .refuse _
  · exact .refuse _
  · exact (hr _ _).settling.bind fun _ => (settling_callUnary _ _ _ _).guarded

/-- Every argument is evaluated, but after a problem none of them does anything. -/
theorem stops_arguments (pieces : List Text) :
    Stops (fun _ => True) (pieces.mapM (recur .whole)) := by
  induction pieces with
  | nil => exact .answer trivial
  | cons piece pieces ih =>
    rw [List.mapM_cons]
    exact (hr _ _).bind fun _ => ih.bind fun _ => .answer trivial

theorem settling_applyList (f : ListFunction) (multiplier argument expression : Text) :
    Settling IsOne (applyList recur f multiplier argument expression) := by
  unfold Eval.applyList
  split_ifs
  · exact .refuse _
  · split
    · split_ifs
      · exact .refuse _
      · exact (stops_arguments hr _).settling.bind fun _ => (settling_callList _ _ _ _).guarded
    · exact (hr _ _).settling.bind fun _ => (settling_callList _ _ _ _).guarded

theorem settling_applyConstant (t : Text) : Settling IsOne (applyConstant recur t) := by
  unfold Eval.applyConstant
  split
  · exact settling_readLiteral t
  · rename_i c _
    have hproduct : ∀ factor, Stops IsOne (unlessFailed do
        let result ← requireFinite (factor * c.value) t
        noteUnlessFailed (.constant c.name c.value t)
        return result : Eval σ Float stack) := fun factor =>
      ((stops_requireFinite (factor * c.value) t).noted fun _ =>
        .constant c.name c.value t).settling.guarded
    dsimp only
    split_ifs
    · exact (@Settling.answer σ stack Float IsOne 1.0).bind hproduct
    · exact (hr _ _).settling.bind hproduct

theorem stops_application (t : Text) : Stops IsOne (application recur t) := by
  refine Settling.guarded ?_
  dsimp only
  split
  · exact settling_applyList hr _ _ _ _
  · split
    · exact settling_applyUnary hr _ _ _ _
    · exact settling_applyConstant hr _

theorem stops_factorialTier (t : Text) : Stops IsOne (factorialTier recur t) := by
  refine Settling.guarded ?_
  split_ifs
  · exact (stops_application hr t).settling
  · exact .refuse _
  · exact (hr _ _).settling.bind fun value =>
      ((settling_factorial value).noted fun result => .factorial value result t).guarded

/-! ## Tiers of binary operators -/

theorem stops_operand (neutral : Float) (t : Text) :
    Stops (fun _ => True) (operand recur neutral t) := by
  unfold Eval.operand
  split_ifs
  · exact .answer trivial
  · have hstops := hr .operand t
    refine ⟨⟨fun hs h => ⟨(hstops.settling.ok hs h).1, fun _ => trivial⟩, hstops.settling.fault⟩,
      fun hs => ?_⟩
    obtain ⟨a, ha, -⟩ := hstops.idle hs
    exact ⟨a, ha, trivial⟩

theorem settling_foldCuts (neutral left : Float) (cuts : List Cut) :
    Settling IsOne (foldCuts setting recur neutral left cuts) := by
  induction cuts generalizing left with
  | nil => exact .answer left
  | cons cut rest ih =>
    refine (stops_operand hr neutral cut.right).settling.bind fun right => Settling.guarded ?_
    refine (settling_combine _ _ _ _).bind fun result => Settling.guarded ?_
    exact .note_bind _ (ih result)

/-- With a cut to fold, the fold can follow a start that failed. -/
theorem stops_foldCuts (neutral left : Float) (cut : Cut) (rest : List Cut) :
    Stops IsOne (foldCuts setting recur neutral left (cut :: rest)) where
  settling := settling_foldCuts hr neutral left (cut :: rest)
  idle {s} hs := by
    obtain ⟨a, ha, -⟩ := (stops_operand hr neutral cut.right).idle hs
    refine ⟨1.0, ?_, rfl⟩
    rw [foldCuts, bind_of_ok ha, unlessFailed_of_failed hs]

theorem stops_splitTier (tier : Tier) {next : Text → Eval σ Float stack}
    (hn : ∀ t, Stops IsOne (next t)) (t : Text) :
    Stops IsOne (splitTier setting recur tier next t) := by
  refine Settling.guarded ?_
  split
  · exact (hn t).settling
  · exact (stops_operand hr _ _).settling.bind fun _ => stops_foldCuts hr _ _ _ _

theorem stops_operators (t : Text) : Stops IsOne (operators setting recur t) := by
  refine stops_splitTier hr _ (fun t => ?_) t
  refine stops_splitTier hr _ (fun t => ?_) t
  refine stops_splitTier hr _ (fun t => ?_) t
  exact stops_splitTier hr _ (stops_factorialTier hr) t

/-! ## Groups -/

theorem settling_foldGroup (before inner after group : Text) :
    Settling (fun _ => True) (foldGroup recur (.between before inner after) group) := by
  unfold Eval.foldGroup
  dsimp only
  split_ifs
  · exact .enter_return _ trivial
  · exact .enter_return _ trivial
  · exact .note_bind _ (.answer _)
  · refine (hr _ _).settling.bind fun value => Settling.unless trivial ?_
    split_ifs
    · exact .enter_return _ trivial
    · rw [insertValue_between]
      exact .note_bind _ (.answer _)

theorem stops_foldGroups (rounds : Nat) (t : Text) :
    Stops (fun _ => True) (foldGroups recur rounds t) := by
  induction rounds generalizing t with
  | zero => exact .answer trivial
  | succ rounds ih =>
    refine Settling.unless trivial ?_
    split
    · exact .answer t
    · split
      · exact .enter_return _ trivial
      · exact (settling_foldGroup hr _ _ _ _).bind ih

theorem settling_resolveGroups (t : Text) :
    Settling (fun _ => True) (resolveGroups recur t) := by
  by_cases hround : t.count '(' = t.count ')'
  · rw [resolveGroups_of_even hround]
    split_ifs
    · exact (stops_foldGroups hr _ t).settling
    · exact .enter_return _ trivial
  · rw [resolveGroups_of_uneven hround]
    split_ifs
    · exact .enter_return _ trivial
    · exact .enter_both (.bothBrackets t) trivial

theorem settling_step (entry : Entry) (t : Text) :
    Settling IsOne (Eval.step setting recur entry t) := by
  cases entry with
  | whole =>
    exact (settling_resolveGroups hr t).bind fun flat => (stops_operators hr flat).settling.guarded
  | operand => exact (stops_operators hr t).settling
  | factorial => exact (stops_factorialTier hr t).settling
  | application => exact (stops_application hr t).settling

end Tiers

/-! ## Whole runs -/

/-- Nested evaluations stop at their first problem, by induction on the levels. -/
theorem stops_descend (setting : Setting σ) (levels : Nat) (entry : Entry) (t : Text) :
    Stops IsOne (descend setting levels entry t : Eval σ Float stack) := by
  induction levels generalizing entry t with
  | zero => exact (Settling.refuse _).guarded
  | succ levels ih => exact (settling_step ih entry t).nested.guarded

theorem settling_evaluateBare (setting : Setting σ) (t : Text) :
    Settling (fun _ => True) (evaluateBare setting t : Eval σ Float stack) := by
  unfold evaluateBare
  split_ifs
  · exact .enter_return _ trivial
  · exact .enter_return _ trivial
  · exact (stops_descend setting _ .whole t).settling.bind fun value => .checked _ _ trivial

/-- **Short circuit.** The ledger of an evaluation that returns, on whatever stack, is a list of
entries that are no problems, followed by the problems of one check. Everything that the run
did, it did before the first problem: the dice afterwards, and the number of dice shown, are what
the entries before the problems make of them. And an evaluation that has failed, from whatever
state it was started in, answers one. -/
theorem evaluateExpression_shortCircuit (setting : Setting σ) (dice : σ) (expression : Text)
    (stack : Stack) :
    (∀ e after, evaluateExpression setting dice expression stack = .ok (e, after) →
      ∃ done problems, e.ledger.events = done ++ problems.map .problem ∧ Untroubled done ∧
        OneCheck problems ∧ problems.length ≤ 2 ∧
        (∀ p ∈ problems, ∀ q ∈ problems, p.kind = q.kind) ∧
        after = setting.source.replay done dice ∧ e.ledger.shown = shownIn done) ∧
    ∀ t (s : Progress σ stack) value s', evaluate setting t s = .ok value s' → s'.failed = true →
      value = 1.0 := by
  constructor
  · intro e after h
    rcases evaluateExpression_returns.mp h with
      ⟨value, u, hrun, rfl, rfl⟩ | ⟨fault, u, hrun, hcaught, rfl, rfl⟩
    · obtain ⟨⟨done, problems, hevents, hdone, hcheck, -⟩, -⟩ :=
        (settling_evaluateBare setting _).ok rfl hrun
      obtain ⟨entries, hrecounts, -⟩ := (accounts_evaluateBare setting _).ok hrun
      have hsplit : u.ledger.events = done ++ problems.map .problem := by simpa using hevents
      have hentries : entries = done ++ problems.map .problem := by
        rw [← hsplit, hrecounts.events]
        rfl
      refine ⟨done, problems, hsplit, hdone, hcheck, hcheck.length_le,
        fun p hp q hq => hcheck.kind_eq hp hq, ?_, ?_⟩
      · rw [hrecounts.dice, hentries, Source.replay_append, Source.replay_problems]
      · rw [hrecounts.shown, hentries, shownIn_append, shownIn_problems]
        exact Nat.zero_add _
    · -- where the stack is exhausted there has been no problem before the one that says so
      obtain ⟨done, hevents, hdone⟩ := (settling_evaluateBare setting _).fault rfl hrun
      have hnew : u.ledger.events = done := hevents.trans (List.nil_append done)
      rcases (accounts_evaluateBare setting _).fault hrun with
        ⟨rfl, -⟩ | ⟨-, entries, v, hrecounts, -, hraised⟩
      · cases hcaught
      have hledger : u.ledger.events = v.ledger.events ∧ u.ledger.shown = v.ledger.shown ∧
          u.dice = v.dice := by
        rcases hraised with rfl | rfl <;> exact ⟨rfl, rfl, rfl⟩
      have hentries : entries = done := by
        rw [← hnew, hledger.1, hrecounts.events]
        rfl
      have hcheck := OneCheck.single .tooComplex
      refine ⟨done, [.tooComplex], congrArg (· ++ [Event.problem .tooComplex]) hnew, hdone, hcheck,
        hcheck.length_le, fun p hp q hq => hcheck.kind_eq hp hq, ?_, ?_⟩
      · rw [hledger.2.2, hrecounts.dice, hentries]
      · show u.ledger.shown = _
        rw [hledger.2.1, hrecounts.shown, hentries]
        exact Nat.zero_add _
  · intro t s value s' h hfailed
    by_cases hs : s.failed = true
    · obtain ⟨a, ha, hone⟩ := (stops_descend setting _ .whole t).idle hs
      have : EStateM.Result.ok value s' = .ok a s := h.symm.trans ha
      cases this
      exact hone
    · exact ((stops_descend setting _ .whole t).settling.ok (by simpa using hs) h).2 hfailed

end Reckoner

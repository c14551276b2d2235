import Reckoner.Proofs.Account
import Reckoner.Proofs.Syntax.Tree

/-!
# Evaluations that agree with a meaning

An evaluation without dice agrees with an expected result: it comes back with the dice as they
were; without a problem it answers what is expected; and where all is fine, it meets a problem
only if its levels are not enough. Each primitive step agrees with the operation it stands for,
and agreement is carried through sequences of steps.
-/

namespace Reckoner

open Eval

variable {σ α β : Type}

/-- From a state without problems the evaluation does as expected. -/
def Agrees (expected : Option α) (fine enough : Prop) (m : Eval σ α) : Prop :=
  ∀ ⦃s : Progress σ⦄, s.failed = false → ∃ a t, m s = .ok a t ∧ Unrolled s t ∧
    (t.failed = false → expected = some a) ∧ (fine → (t.failed = false ↔ enough))

namespace Agrees

variable {fine enough : Prop} {expected : Option α}

theorem answer (a : α) : Agrees (σ := σ) (some a) fine True (pure a) := by
  intro s hs
  exact ⟨a, s, rfl, .refl s, fun _ => rfl, fun _ => iff_of_true hs trivial⟩

theorem refuse {expected : Option Float} (p : Problem) (h : fine → ¬enough) :
    Agrees (σ := σ) expected fine enough (refuse p) := by
  intro s _
  have hfailed : ¬(s.add (.problem p)).failed = false := by simp [Progress.failed_add_problem]
  exact ⟨1.0, s.add (.problem p), rfl, .add s rfl, fun ht => absurd ht hfailed,
    fun hfine => iff_of_false hfailed (h hfine)⟩

theorem mono {m : Eval σ α} {fine' enough' : Prop} (h : Agrees expected fine enough m)
    (hfine : fine' → fine) (henough : enough ↔ enough') : Agrees expected fine' enough' m := by
  intro s hs
  obtain ⟨a, t, hrun, hunrolled, hclear, hwanted⟩ := h hs
  exact ⟨a, t, hrun, hunrolled, hclear, fun h => (hwanted (hfine h)).trans henough⟩

theorem guarded {expected : Option Float} {m : Eval σ Float} (h : Agrees expected fine enough m) :
    Agrees expected fine enough (unlessFailed m) := by
  intro s hs
  rw [unlessFailed_of_not_failed hs]
  exact h hs

theorem nested {m : Eval σ α} (h : Agrees expected fine enough m) :
    Agrees expected fine enough (Eval.nested m) := by
  intro s hs
  have hdeeper : (deeper s).failed = false := hs
  obtain ⟨a, t, hrun, hunrolled, hclear, hwanted⟩ := h hdeeper
  refine ⟨a, atDepth s.depth t, ?_, ⟨hunrolled.dice, hunrolled.rolls, hunrolled.shown⟩, hclear,
    hwanted⟩
  rw [nested_apply, hrun]

/-- What follows is expected of the answer; after a problem it does nothing. -/
theorem bind {next : α → Option β} {enough' : Prop} {m : Eval σ α} {k : α → Eval σ β}
    (hm : Agrees expected fine enough m)
    (hidle : ∀ a s, s.failed = true → ∃ b, k a s = .ok b s)
    (hk : ∀ a, expected = some a → Agrees (next a) fine enough' (k a)) :
    Agrees (expected.bind next) fine (enough ∧ enough') (m >>= k) := by
  intro s hs
  obtain ⟨a, t, hrun, hunrolled, hclear, hwanted⟩ := hm hs
  rw [bind_of_ok hrun]
  cases ht : t.failed with
  | true =>
    obtain ⟨b, hb⟩ := hidle a t ht
    have hnot : ¬t.failed = false := by simp [ht]
    refine ⟨b, t, hb, hunrolled, fun hfalse => absurd hfalse hnot, fun hfine => ?_⟩
    exact iff_of_false hnot fun h => hnot ((hwanted hfine).mpr h.1)
  | false =>
    have ha := hclear ht
    obtain ⟨b, u, hb, hunrolled', hclear', hwanted'⟩ := hk a ha ht
    refine ⟨b, u, hb, hunrolled.trans hunrolled', fun hu => ?_, fun hfine => ?_⟩
    · rw [ha]
      exact hclear' hu
    · rw [hwanted' hfine, iff_and_self]
      exact fun _ => (hwanted hfine).mp ht

theorem bind_guarded {next : α → Option Float} {enough' : Prop} {m : Eval σ α}
    {k : α → Eval σ Float} (hm : Agrees expected fine enough m)
    (hk : ∀ a, expected = some a → Agrees (next a) fine enough' (k a)) :
    Agrees (expected.bind next) fine (enough ∧ enough') (m >>= fun a => unlessFailed (k a)) :=
  hm.bind (fun a _ hs => ⟨1.0, unlessFailed_of_failed hs (k a)⟩) fun a ha => (hk a ha).guarded

/-- What follows needs no levels. -/
theorem finish {next : α → Option Float} {m : Eval σ α} {k : α → Eval σ Float}
    (hm : Agrees expected fine enough m)
    (hk : ∀ a, expected = some a → Agrees (next a) fine True (k a)) :
    Agrees (expected.bind next) fine enough (m >>= fun a => unlessFailed (k a)) :=
  (hm.bind_guarded hk).mono id (iff_of_eq (and_true enough))

theorem noted {expected : Option Float} {m : Eval σ Float} (h : Agrees expected fine enough m)
    (step : Float → Step) : Agrees expected fine enough (do
      let x ← m
      noteUnlessFailed (step x)
      return x) := by
  intro s hs
  obtain ⟨x, t, hrun, hunrolled, hclear, hwanted⟩ := h hs
  rw [bind_of_ok hrun, bind_of_ok (noteUnlessFailed_apply (step x) t)]
  cases ht : t.failed with
  | true => exact ⟨x, t, rfl, hunrolled, hclear, hwanted⟩
  | false =>
    have hadd := Progress.failed_add_step t (step x)
    refine ⟨x, t.add (.step (step x)), rfl, hunrolled.trans (.add t rfl), fun _ => hclear ht,
      fun hfine => ?_⟩
    exact (iff_of_eq (congrArg (· = false) hadd)).trans (hwanted hfine)

end Agrees

/-! ## Primitive steps -/

variable {setting : Setting σ} {fine : Prop}

/-- Where nothing is expected a step may refuse. -/
theorem agrees_refuse (p : Problem) {enough : Prop}
    (h : fine → (none : Option Float).isSome = true) :
    Agrees (σ := σ) none fine enough (refuse p) :=
  .refuse p fun hfine => absurd (h hfine) Bool.false_ne_true

theorem agrees_combine {o : Operator} (ho : o ≠ .dice) {x y : Float} (fragment : Text)
    (h : fine → (o.apply x y).isSome = true) :
    Agrees (o.apply x y) fine True (combine setting o x y fragment) := by
  cases o with
  | plus => exact .answer _
  | minus => exact .answer _
  | times => exact .answer _
  | divide =>
    simp only [Operator.apply, combine, divide] at h ⊢
    split_ifs at h ⊢
    · exact agrees_refuse _ h
    · exact .answer _
  | modulo =>
    simp only [Operator.apply, combine, modulo] at h ⊢
    split_ifs at h ⊢
    · exact agrees_refuse _ h
    · exact agrees_refuse _ h
    · exact .answer _
  | power =>
    simp only [Operator.apply, combine, raise] at h ⊢
    split_ifs at h ⊢
    · exact agrees_refuse _ h
    · cases hpower : power x y with
      | ok z => exact .answer z
      | error fault =>
        rw [hpower] at h
        cases fault <;> exact agrees_refuse _ h
  | dice => exact absurd rfl ho

theorem agrees_factorial {x : Float} (h : fine → (factorial? x).isSome = true) :
    Agrees (σ := σ) (factorial? x) fine True (factorial x) := by
  unfold factorial? at h ⊢
  unfold factorial
  cases hround : roundToInt? x with
  | none =>
    rw [hround] at h
    exact agrees_refuse _ h
  | some n =>
    rw [hround, Option.bind_some] at h
    dsimp only [Option.bind_some]
    cases hproduct : factorialOf? n with
    | none =>
      rw [hproduct] at h
      exact agrees_refuse _ h
    | some product => exact .answer product

theorem agrees_readLiteral {n : Numeral} (hn : n.Regular)
    (h : fine → (n.toDouble? false).isSome = true) :
    Agrees (σ := σ) (n.toDouble? false) fine True (readLiteral n.text) := by
  have htext : signedNumeral false n = n.text := rfl
  rw [← htext, readLiteral_signedNumeral hn false]
  cases hvalue : n.toDouble? false with
  | none =>
    rw [hvalue] at h
    exact agrees_refuse _ h
  | some x => exact .answer x

theorem agrees_requireFinite {x : Float} (fragment : Text)
    (h : fine → (finite? x).isSome = true) :
    Agrees (σ := σ) (finite? x) fine True (requireFinite x fragment) := by
  refine Agrees.guarded ?_
  unfold finite? at h ⊢
  split_ifs at h ⊢
  · exact .answer x
  · exact agrees_refuse _ h

/-! ## Calls -/

theorem optionalText_some_isEmpty {n : Numeral} (hn : n.Regular) : n.text.isEmpty = false := by
  obtain ⟨c, rest, htext, -⟩ := text_of_regular_eq_cons hn
  rw [htext]
  rfl

theorem agrees_multiplierValue {n : Option Numeral} (hn : ∀ m ∈ n, m.Regular)
    (h : fine → (Tree.optionalValue n).isSome = true) :
    Agrees (σ := σ) (Tree.optionalValue n) fine True (multiplierValue (Tree.optionalText n)) := by
  cases n with
  | none => exact .answer 1.0
  | some n =>
    have hempty : (Tree.optionalText (some n)).isEmpty = false := optionalText_some_isEmpty (hn n rfl)
    rw [multiplierValue, hempty, if_neg Bool.false_ne_true]
    exact agrees_readLiteral (hn n rfl) h

/-- What is expected of a call whose function has a value. -/
def scaled (multiplier : Option Numeral) (y : Float) : Option Float :=
  (Tree.optionalValue multiplier).bind fun x => finite? (x * y)

theorem agrees_finishCall {n : Option Numeral} (hn : ∀ m ∈ n, m.Regular) (name : String)
    (arguments : List Float) (y : Float) (expression : Text)
    (h : fine → (scaled n y).isSome = true) :
    Agrees (σ := σ) (scaled n y) fine True
      (finishCall name (Tree.optionalText n) arguments y expression) := by
  have hfactor : fine → (Tree.optionalValue n).isSome = true := fun hfine => by
    have := h hfine
    unfold scaled at this
    cases hvalue : Tree.optionalValue n with
    | none => rw [hvalue] at this; cases this
    | some x => rfl
  refine ((agrees_multiplierValue hn hfactor).bind (fun x s hs => ?_) fun x hx => ?_).mono id
    (iff_of_eq (and_true True))
  · obtain ⟨a, ha, -⟩ := ((stops_requireFinite (x * y) expression).noted fun _ =>
      .call name arguments y expression).idle hs
    exact ⟨a, ha⟩
  · refine (agrees_requireFinite expression fun hfine => ?_).noted fun _ =>
      .call name arguments y expression
    have := h hfine
    unfold scaled at this
    rw [hx] at this
    exact this

theorem agrees_callUnary {f : UnaryFunction} {n : Option Numeral} (hn : ∀ m ∈ n, m.Regular)
    (x : Float) (expression : Text)
    (h : fine → (((Callee.unary f).apply [x]).bind (scaled n)).isSome = true) :
    Agrees (σ := σ) (((Callee.unary f).apply [x]).bind (scaled n)) fine True
      (callUnary f (Tree.optionalText n) x expression) := by
  unfold callUnary
  simp only [Callee.apply] at h ⊢
  cases hfinite : x.isFinite with
  | false =>
    rw [hfinite] at h
    exact agrees_refuse _ h
  | true =>
    cases hadmits : f.admits x with
    | false =>
      rw [hfinite, hadmits] at h
      exact agrees_refuse _ h
    | true =>
      rw [hfinite, hadmits] at h
      cases hvalue : f.transform x with
      | error fault =>
        rw [hvalue] at h
        exact agrees_refuse _ h
      | ok y =>
        rw [hvalue] at h
        exact agrees_finishCall hn _ _ _ _ h

theorem agrees_callList {f : ListFunction} {n : Option Numeral} (hn : ∀ m ∈ n, m.Regular)
    (xs : List Float) (expression : Text)
    (h : fine → (((Callee.list f).apply xs).bind (scaled n)).isSome = true) :
    Agrees (σ := σ) (((Callee.list f).apply xs).bind (scaled n)) fine True
      (callList f (Tree.optionalText n) xs expression) := by
  have hadmitted : f.arity.all (xs.length == ·) = true →
      Agrees (σ := σ) (((Callee.list f).apply xs).bind (scaled n)) fine True
        (callList.admitted f (Tree.optionalText n) xs expression) := by
    intro harity
    unfold callList.admitted
    simp only [Callee.apply] at h ⊢
    rw [harity, Bool.true_and] at h ⊢
    cases hadmits : f.admits xs with
    | false =>
      rw [hadmits] at h
      exact agrees_refuse _ h
    | true =>
      rw [hadmits] at h
      cases hvalue : f.transform xs with
      | error fault =>
        rw [hvalue] at h
        exact agrees_refuse _ h
      | ok y =>
        rw [hvalue] at h
        exact agrees_finishCall hn _ _ _ _ h
  unfold callList
  cases harity : f.arity with
  | none => exact hadmitted (by rw [harity]; rfl)
  | some arity =>
    cases hlength : xs.length == arity with
    | true =>
      have hne : (xs.length != arity) = false := by rw [bne, hlength]; rfl
      dsimp only
      rw [hne, if_neg Bool.false_ne_true]
      exact hadmitted (by rw [harity]; exact hlength)
    | false =>
      have hne : (xs.length != arity) = true := by rw [bne, hlength]; rfl
      have hnone : (Callee.list f).apply xs = none := by
        rw [Callee.apply, harity, Option.all_some, hlength]
        rfl
      dsimp only
      rw [hnone] at h ⊢
      rw [hne, if_pos rfl]
      exact agrees_refuse _ h

end Reckoner

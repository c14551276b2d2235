import Reckoner.Proofs.Split

/-!
# Steps that succeed

What a step without nested evaluations has done, if it ends without a problem: its checks held,
and nothing was entered but its own entry. A step that is refused ends with a problem, so these
are the only runs that an evaluation without a problem is made of.
-/

namespace Reckoner

open Eval

variable {σ : Type} {s u : Progress σ} {x y z : Float}

/-! ## Guards -/

theorem ne_add_problem (hu : u.failed = false) (s : Progress σ) (p : Problem) :
    u ≠ s.add (.problem p) := by
  rintro rfl
  rw [Progress.failed_add_problem] at hu
  cases hu

theorem refuse_ne_ok (hu : u.failed = false) (p : Problem) : refuse p s ≠ .ok z u := by
  intro h
  cases h
  exact ne_add_problem hu s p rfl

theorem unlessFailed_eq_ok {next : Eval σ Float} (h : unlessFailed next s = .ok z u)
    (hu : u.failed = false) : s.failed = false ∧ next s = .ok z u := by
  rw [unlessFailed_apply] at h
  split_ifs at h with hs
  · cases h
    rw [hs] at hu
    cases hu
  · exact ⟨by simpa using hs, h⟩

theorem noted_eq_ok {m : Eval σ Float} {step : Float → Step}
    (h : (do
      let x ← m
      noteUnlessFailed (step x)
      return x) s = .ok z u) (hu : u.failed = false) :
    ∃ v, m s = .ok z v ∧ v.failed = false ∧ u = v.add (.step (step z)) := by
  obtain ⟨x, v, hm, h⟩ := bind_eq_ok.mp h
  rw [bind_of_ok (noteUnlessFailed_apply (step x) v)] at h
  split_ifs at h with hv
  · cases h
    rw [hv] at hu
    cases hu
  · cases h
    exact ⟨v, hm, by simpa using hv, rfl⟩

theorem requireFinite_eq_ok {fragment : Text} (h : requireFinite x fragment s = .ok z u)
    (hu : u.failed = false) : z = x ∧ x.isFinite = true ∧ u = s := by
  obtain ⟨-, h⟩ := unlessFailed_eq_ok h hu
  split_ifs at h with hx
  · cases h
    exact ⟨rfl, hx, rfl⟩
  · exact absurd h (refuse_ne_ok hu _)

/-! ## Operators -/

/-- An operator that has a value for two operands, with the roll it makes. -/
inductive Combined : Operator → Float → Float → Float → List Event → Prop where
  | plus (x y : Float) : Combined .plus x y (x + y) []
  | minus (x y : Float) : Combined .minus x y (x - y) []
  | times (x y : Float) : Combined .times x y (x * y) []
  | divide (x : Float) {y : Float} (h : (y == 0) = false) : Combined .divide x y (x / y) []
  | power {x y z : Float} (h : power x y = .ok z) : Combined .power x y z []
  | modulo {x : Float} (y : Float) (h : x.isFinite = true) : Combined .modulo x y (remainder x y) []
  | dice (x y : Float) {z : Float} {count faces total : Int} (shown : List Nat) (cut : Bool)
    (h : intToDouble? total = some z) :
    Combined .dice x y z [.roll (.rolled count faces shown cut total)]

theorem roll_eq_ok {setting : Setting σ} (h : roll setting x y s = .ok z u)
    (hu : u.failed = false) :
    ∃ count faces, intToDouble? (rollTotal setting count faces s) = some z ∧
      u = afterRoll setting count faces s := by
  unfold roll at h
  cases hcount : diceCount setting.limits x with
  | ok count =>
    cases hfaces : faceCount y with
    | ok faces =>
      rw [hcount, hfaces] at h
      dsimp only at h
      rw [rollDice_apply] at h
      refine ⟨count, faces, ?_⟩
      cases htotal : intToDouble? (rollTotal setting count faces s) with
      | none => rw [htotal] at h; cases h
      | some x => rw [htotal] at h; cases h; exact ⟨rfl, rfl⟩
    | error p =>
      rw [hcount, hfaces] at h
      cases h
      exact absurd rfl (ne_add_problem hu s p)
  | error p =>
    cases hfaces : faceCount y with
    | ok faces =>
      rw [hcount, hfaces] at h
      cases h
      exact absurd rfl (ne_add_problem hu s p)
    | error q =>
      rw [hcount, hfaces] at h
      cases h
      exact absurd rfl (ne_add_problem hu (s.add (.problem p)) q)

theorem combine_eq_ok {setting : Setting σ} {o : Operator} {fragment : Text}
    (h : combine setting o x y fragment s = .ok z u) (hu : u.failed = false) :
    ∃ rolls, Combined o x y z rolls ∧ u.ledger.events = s.ledger.events ++ rolls := by
  have hnone : s.ledger.events = s.ledger.events ++ [] := (List.append_nil _).symm
  cases o with
  | plus => cases h; exact ⟨[], .plus x y, hnone⟩
  | minus => cases h; exact ⟨[], .minus x y, hnone⟩
  | times => cases h; exact ⟨[], .times x y, hnone⟩
  | divide =>
    change Eval.divide x y fragment s = .ok z u at h
    unfold Eval.divide at h
    split_ifs at h with hy
    · exact absurd h (refuse_ne_ok hu _)
    · cases h
      exact ⟨[], .divide x (by simpa using hy), hnone⟩
  | power =>
    change raise x y fragment s = .ok z u at h
    unfold raise at h
    split_ifs at h
    · exact absurd h (refuse_ne_ok hu _)
    · cases hvalue : power x y with
      | ok value =>
        rw [hvalue] at h
        cases h
        exact ⟨[], .power hvalue, hnone⟩
      | error fault =>
        rw [hvalue] at h
        cases fault <;> exact absurd h (refuse_ne_ok hu _)
  | modulo =>
    change Eval.modulo x y fragment s = .ok z u at h
    unfold Eval.modulo at h
    split_ifs at h with hy hx
    · exact absurd h (refuse_ne_ok hu _)
    · exact absurd h (refuse_ne_ok hu _)
    · cases h
      exact ⟨[], .modulo y (by simpa using hx), hnone⟩
  | dice =>
    obtain ⟨count, faces, htotal, rfl⟩ := roll_eq_ok h hu
    exact ⟨_, .dice x y _ _ htotal, rfl⟩

theorem factorial_eq_ok (h : factorial x s = .ok z u) (hu : u.failed = false) :
    (∃ n, factorialOf? n = some z) ∧ u = s := by
  unfold factorial at h
  cases hn : roundToInt? x with
  | none =>
    rw [hn] at h
    exact absurd h (refuse_ne_ok hu _)
  | some n =>
    rw [hn] at h
    dsimp only at h
    cases hproduct : factorialOf? n with
    | none =>
      rw [hproduct] at h
      exact absurd h (refuse_ne_ok hu _)
    | some product =>
      rw [hproduct] at h
      cases h
      exact ⟨⟨n, hproduct⟩, rfl⟩

/-! ## Numerals, constants and functions -/

/-- A text that is read as a number. -/
def ReadsAs (t : Text) (x : Float) : Prop :=
  ∃ n, Numeral.ofText? (takeNegative t).2 = some n ∧ n.toDouble? (takeNegative t).1 = some x

theorem readLiteral_eq_ok {t : Text} (h : readLiteral t s = .ok z u) (hu : u.failed = false) :
    ReadsAs t z ∧ u = s := by
  unfold readLiteral at h
  dsimp only at h
  cases hn : Numeral.ofText? (takeNegative t).2 with
  | none =>
    rw [hn] at h
    exact absurd h (refuse_ne_ok hu _)
  | some n =>
    rw [hn] at h
    dsimp only at h
    cases hx : n.toDouble? (takeNegative t).1 with
    | none =>
      rw [hx] at h
      exact absurd h (refuse_ne_ok hu _)
    | some x =>
      rw [hx] at h
      cases h
      exact ⟨⟨n, hn, hx⟩, rfl⟩

theorem multiplierValue_eq_ok {t : Text} (h : multiplierValue t s = .ok z u)
    (hu : u.failed = false) : u = s := by
  unfold multiplierValue at h
  split_ifs at h
  · cases h
    rfl
  · exact (readLiteral_eq_ok h hu).2

/-- A call that has a value: the factor before it and the value of the function make a finite
product. -/
structure Called (value z : Float) : Prop where
  finite : z.isFinite = true
  product : ∃ factor, z = factor * value

theorem finishCall_eq_ok {name : String} {multiplier expression : Text} {arguments : List Float}
    {value : Float} (h : finishCall name multiplier arguments value expression s = .ok z u)
    (hu : u.failed = false) :
    Called value z ∧ u = s.add (.step (.call name arguments value expression)) := by
  obtain ⟨factor, v, hfactor, h⟩ := bind_eq_ok.mp h
  obtain ⟨w, hproduct, hw, rfl⟩ := noted_eq_ok h hu
  obtain ⟨rfl, hfinite, rfl⟩ := requireFinite_eq_ok hproduct hw
  obtain rfl := multiplierValue_eq_ok hfactor hw
  exact ⟨⟨hfinite, factor, rfl⟩, rfl⟩

theorem callUnary_eq_ok {f : UnaryFunction} {multiplier expression : Text}
    (h : callUnary f multiplier x expression s = .ok z u) (hu : u.failed = false) :
    x.isFinite = true ∧ ∃ y, f.transform x = .ok y ∧ Called y z ∧
      u = s.add (.step (.call f.name [x] y expression)) := by
  unfold callUnary at h
  split_ifs at h with hx
  · exact absurd h (refuse_ne_ok hu _)
  · exact absurd h (refuse_ne_ok hu _)
  · cases hy : f.transform x with
    | error fault =>
      rw [hy] at h
      exact absurd h (refuse_ne_ok hu _)
    | ok y =>
      rw [hy] at h
      exact ⟨by simpa using hx, y, rfl, finishCall_eq_ok h hu⟩

theorem callList_eq_ok {f : ListFunction} {multiplier expression : Text} {xs : List Float}
    (h : callList f multiplier xs expression s = .ok z u) (hu : u.failed = false) :
    ∃ y, f.transform xs = .ok y ∧ Called y z ∧
      u = s.add (.step (.call f.name xs y expression)) := by
  have hadmitted : callList.admitted f multiplier xs expression s = .ok z u := by
    unfold callList at h
    cases harity : f.arity with
    | none =>
      rw [harity] at h
      exact h
    | some arity =>
      rw [harity] at h
      dsimp only at h
      split_ifs at h
      · exact absurd h (refuse_ne_ok hu _)
      · exact h
  unfold callList.admitted at hadmitted
  split_ifs at hadmitted
  · exact absurd hadmitted (refuse_ne_ok hu _)
  · cases hy : f.transform xs with
    | error fault =>
      rw [hy] at hadmitted
      exact absurd hadmitted (refuse_ne_ok hu _)
    | ok y =>
      rw [hy] at hadmitted
      exact ⟨y, rfl, finishCall_eq_ok hadmitted hu⟩

end Reckoner

import Reckoner.Proofs.Alongside
import Reckoner.Proofs.Limits
import Reckoner.Proofs.Homomorphism
import Reckoner.Proofs.Success

/-!
# Derivations

What an evaluation without a problem consists of, as a tree: one rule for every way in which a
text is taken apart, with the entries that are made on the way and the values that nested
evaluations come to, both in order. Levels, states and guards do not occur in it. Every run
that ends without a problem has a derivation (`derives_of_success`), so what holds of all runs
without a problem is proved by induction on derivations.
-/

namespace Reckoner

open Eval

/-! ## Rules -/

/-- What is derived. -/
inductive Judgement where
  /-- A nested evaluation of a text comes to a value. -/
  | nested (entry : Entry) (t : Text) (value : Float)
  /-- Evaluated where it stands, a text comes to a value. -/
  | direct (entry : Entry) (t : Text) (value : Float)
  /-- On one side of an operator of the tier, a text comes to a value. -/
  | side (tier : Tier) (t : Text) (value : Float)
  /-- The arguments of a call come to values. -/
  | arguments (pieces : List Text) (values : List Float)
  /-- When all groups of a text are folded, another text is left. -/
  | folds (t flat : Text)

/-- The text of a call behind its multiplier. -/
def calleeText (t : Text) : Text := (takeMultiplier t).2

/-- What is derived without a problem, with the entries made and the values of the nested
evaluations. -/
inductive Derives : Judgement → List Event → List Float → Prop where
  | nested {entry : Entry} {t : Text} {x : Float} {es : List Event} {ns : List Float}
    (h : Derives (.direct entry t x) es ns) : Derives (.nested entry t x) es (ns ++ [x])
  -- groups
  | flat {t : Text} (ht : Flat t) : Derives (.folds t t) [] []
  | listed {before inner after flat : Text} {es : List Event} {ns : List Float}
    (hinner : Flat inner)
    (h : Derives (.folds (before ++ bracketed (splitTopLevel (· == ',') inner) ++ after) flat)
      es ns) :
    Derives (.folds (before ++ '(' :: (inner ++ ')' :: after)) flat)
      (.step (listStep inner) :: es) ns
  | valued {before inner after flat : Text} {x : Float} {es es' : List Event}
    {ns ns' : List Float} (hinner : Flat inner) (hx : Derives (.nested .whole inner x) es ns)
    (hfinite : x.isFinite = true)
    (h : Derives (.folds (before ++ valueText before x after ++ after) flat) es' ns') :
    Derives (.folds (before ++ '(' :: (inner ++ ')' :: after)) flat)
      (es ++ .step (valueStep inner x) :: es') (ns ++ ns')
  | whole {t flat : Text} {x : Float} {es es' : List Event} {ns ns' : List Float}
    (hflat : Derives (.folds t flat) es ns) (hx : Derives (.direct .operand flat x) es' ns') :
    Derives (.direct .whole t x) (es ++ es') (ns ++ ns')
  -- operators
  | split {looser tighter : List Tier} {tier : Tier} {l r : Text} {c : Char} {x y z : Float}
    {es es' rolls : List Event} {ns ns' : List Float}
    (htiers : Tier.all = looser ++ tier :: tighter) (hlooser : UnsplitBy looser (l ++ c :: r))
    (hc : c ∈ tier.symbols)
    (hlast : splitPoints tier.symbols tier.signed (l ++ c :: r) =
      splitPoints tier.symbols tier.signed l ++ [l.length])
    (hx : Derives (.side tier l x) es ns) (hy : Derives (.side tier r y) es' ns')
    (hz : Combined (.ofSymbol c) x y z rolls) :
    Derives (.direct .operand (l ++ c :: r) z)
      (es ++ es' ++ (rolls ++
        [.step (.binary x (Operator.ofSymbol c).symbol y z (l ++ c :: r))]))
      (ns ++ ns')
  | unsplit {t : Text} {x : Float} {es : List Event} {ns : List Float}
    (ht : UnsplitBy Tier.all t) (h : Derives (.direct .factorial t x) es ns) :
    Derives (.direct .operand t x) es ns
  | missing (tier : Tier) : Derives (.side tier [] tier.neutral) [] []
  | operand {tier : Tier} {t : Text} {x : Float} {es : List Event} {ns : List Float} (ht : t ≠ [])
    (h : Derives (.nested .operand t x) es ns) : Derives (.side tier t x) es ns
  | chain {tier : Tier} {t : Text} {x : Float} {es : List Event} {ns : List Float} (ht : t ≠ [])
    (h : Derives (.direct .operand t x) es ns) : Derives (.side tier t x) es ns
  -- factorials
  | applied {t : Text} {x : Float} {es : List Event} {ns : List Float}
    (h : Derives (.direct .application t x) es ns) : Derives (.direct .factorial t x) es ns
  | factorial {t : Text} {x z : Float} {n : Int} {es : List Event} {ns : List Float}
    (hx : Derives (.nested .factorial t x) es ns) (hz : factorialOf? n = some z) :
    Derives (.direct .factorial (t ++ ['!']) z)
      (es ++ [.step (.factorial x z (t ++ ['!']))]) ns
  -- functions, constants and numerals
  | unary {t : Text} {f : UnaryFunction} {x y z : Float} {es : List Event} {ns : List Float}
    (hf : findUnaryFunction (calleeText t) = some f)
    (hx : Derives (.nested .application ((calleeText t).drop f.name.length) x) es ns)
    (hfinite : x.isFinite = true) (hy : f.transform x = .ok y) (hz : Called y z) :
    Derives (.direct .application t z) (es ++ [.step (.call f.name [x] y t)]) ns
  | single {t : Text} {f : ListFunction} {x y z : Float} {es : List Event} {ns : List Float}
    (hf : findListFunction (calleeText t) = some f)
    (hx : Derives (.nested .application ((calleeText t).drop f.name.length) x) es ns)
    (hy : f.transform [x] = .ok y) (hz : Called y z) :
    Derives (.direct .application t z) (es ++ [.step (.call f.name [x] y t)]) ns
  | list {t : Text} {f : ListFunction} {pieces : List Text} {xs : List Float} {y z : Float}
    {es : List Event} {ns : List Float} (hf : findListFunction (calleeText t) = some f)
    (hpieces : bracketedList? ((calleeText t).drop f.name.length) = some pieces)
    (hxs : Derives (.arguments pieces xs) es ns) (hy : f.transform xs = .ok y) (hz : Called y z) :
    Derives (.direct .application t z) (es ++ [.step (.call f.name xs y t)]) ns
  | constant {k : Constant} (hk : k ∈ constants) (hz : (1.0 * k.value).isFinite = true) :
    Derives (.direct .application k.name.toList (1.0 * k.value))
      [.step (.constant k.name k.value k.name.toList)] []
  | multiple {front : Text} {k : Constant} {x : Float} {es : List Event} {ns : List Float}
    (hk : k ∈ constants) (hx : Derives (.nested .application front x) es ns)
    (hz : (x * k.value).isFinite = true) :
    Derives (.direct .application (front ++ k.name.toList) (x * k.value))
      (es ++ [.step (.constant k.name k.value (front ++ k.name.toList))]) ns
  | literal {t : Text} {x : Float} (h : ReadsAs t x) : Derives (.direct .application t x) [] []
  | nil : Derives (.arguments [] []) [] []
  | cons {p : Text} {ps : List Text} {x : Float} {xs : List Float} {es es' : List Event}
    {ns ns' : List Float} (hx : Derives (.nested .whole p x) es ns)
    (hxs : Derives (.arguments ps xs) es' ns') :
    Derives (.arguments (p :: ps) (x :: xs)) (es ++ es') (ns ++ ns')

/-! ## Runs -/

variable {σ α : Type}

/-- Between two states these entries were made and these values kept. -/
structure Adds (s u : Progress (σ × List Float)) (es : List Event) (ns : List Float) : Prop where
  events : u.ledger.events = s.ledger.events ++ es
  kept : u.dice.2 = s.dice.2 ++ ns

namespace Adds

variable {s t u : Progress (σ × List Float)} {es es' : List Event} {ns ns' : List Float}

theorem refl (s : Progress (σ × List Float)) : Adds s s [] [] :=
  ⟨(List.append_nil _).symm, (List.append_nil _).symm⟩

theorem trans (h : Adds s t es ns) (h' : Adds t u es' ns') : Adds s u (es ++ es') (ns ++ ns') where
  events := by rw [h'.events, h.events, List.append_assoc]
  kept := by rw [h'.kept, h.kept, List.append_assoc]

/-- A step is noted at the end. -/
theorem step (h : Adds s u es ns) (step : Step) :
    Adds s (u.add (.step step)) (es ++ [.step step]) ns where
  events := by rw [Progress.add_events, h.events, List.append_assoc]
  kept := h.kept

end Adds

/-- Runs of an evaluation without a problem derive what the evaluation is about. -/
def Yields (m : Eval (σ × List Float) α) (judgement : α → Judgement) : Prop :=
  ∀ ⦃s u a⦄, m s = .ok a u → u.failed = false →
    ∃ es ns, Derives (judgement a) es ns ∧ Adds s u es ns

theorem Yields.guarded {m : Eval (σ × List Float) Float} {judgement : Float → Judgement}
    (hm : Yields m judgement) : Yields (unlessFailed m) judgement := by
  intro s u x h hu
  exact hm (unlessFailed_eq_ok h hu).2 hu

theorem Yields.mono {m : Eval (σ × List Float) α} {judgement judgement' : α → Judgement}
    (hm : Yields m judgement)
    (h : ∀ {a es ns}, Derives (judgement a) es ns → Derives (judgement' a) es ns) :
    Yields m judgement' := by
  intro s u a hrun hu
  obtain ⟨es, ns, hderives, hadds⟩ := hm hrun hu
  exact ⟨es, ns, h hderives, hadds⟩

/-- Dice leave what is kept as it was. -/
theorem kept_of_accounts {setting : Setting σ} {m : Eval (σ × List Float) α}
    (hm : Accounts (setting.alongside id) m) {s u : Progress (σ × List Float)} {a : α}
    (h : m s = .ok a u) : u.dice.2 = s.dice.2 := by
  obtain ⟨entries, hentries, -⟩ := hm.ok h
  have hdice : u.dice = (setting.source.alongside id).replay entries s.dice := hentries.dice
  rw [hdice, Source.replay_alongside, Function.iterate_id]
  rfl

theorem adds_combine {setting : Setting σ} {o : Operator} {x y z : Float} {fragment : Text}
    {s u : Progress (σ × List Float)}
    (h : combine (setting.alongside id) o x y fragment s = .ok z u) (hu : u.failed = false) :
    ∃ rolls, Combined o x y z rolls ∧ Adds s u rolls [] := by
  obtain ⟨rolls, hcombined, hevents⟩ := combine_eq_ok h hu
  have haccounts := (Accounts.congruence .ample
    (setting.alongside (id : List Float → List Float))).combine o x y fragment
  exact ⟨rolls, hcombined, hevents, (kept_of_accounts haccounts h).trans (List.append_nil _).symm⟩

/-! ## Parts of an evaluation -/

section Parts

variable {setting : Setting σ} {recur : Recur (σ × List Float)}
  (hr : ∀ entry t, Stops IsOne (recur entry t))
  (hyields : ∀ entry t, Yields (recur entry t) (.nested entry t))

include hyields in
theorem yields_operand (tier : Tier) (t : Text) :
    Yields (operand recur tier.neutral t) (.side tier t) := by
  intro s u x h hu
  unfold Eval.operand at h
  split_ifs at h with ht
  · cases h
    rw [List.isEmpty_iff.mp ht]
    exact ⟨[], [], .missing tier, .refl s⟩
  · exact (hyields .operand t).mono (.operand fun hempty => ht (List.isEmpty_iff.mpr hempty)) h hu

include hr hyields

theorem yields_arguments (pieces : List Text) :
    Yields (pieces.mapM (recur .whole)) (.arguments pieces) := by
  induction pieces with
  | nil =>
    intro s u xs h _
    cases h
    exact ⟨[], [], .nil, .refl s⟩
  | cons p pieces ih =>
    intro s u xs h hu
    rw [List.mapM_cons] at h
    obtain ⟨x, v, hp, h⟩ := bind_eq_ok.mp h
    obtain ⟨ys, w, hpieces, h⟩ := bind_eq_ok.mp h
    cases h
    -- what comes after a problem is idle, so none at the end means none here
    have hv : v.failed = false := (stops_arguments hr pieces).clear hpieces hu
    obtain ⟨es, ns, hx, hadds⟩ := hyields .whole p hp hv
    obtain ⟨es', ns', hxs, hadds'⟩ := ih hpieces hu
    exact ⟨_, _, .cons hx hxs, hadds.trans hadds'⟩

omit hr in
theorem yields_applyUnary {t : Text} {f : UnaryFunction} (multiplier : Text)
    (hf : findUnaryFunction (calleeText t) = some f) :
    Yields (applyUnary recur f multiplier ((calleeText t).drop f.name.length) t)
      (.direct .application t) := by
  intro s u z h hu
  unfold Eval.applyUnary at h
  split_ifs at h
  · exact absurd h (refuse_ne_ok hu _)
  · exact absurd h (refuse_ne_ok hu _)
  · obtain ⟨x, v, hx, h⟩ := bind_eq_ok.mp h
    obtain ⟨hv, h⟩ := unlessFailed_eq_ok h hu
    obtain ⟨hfinite, y, hy, hz, rfl⟩ := callUnary_eq_ok h hu
    obtain ⟨es, ns, hderives, hadds⟩ := hyields .application _ hx hv
    exact ⟨_, _, .unary hf hderives hfinite hy hz, hadds.step _⟩

theorem yields_applyList {t : Text} {f : ListFunction} (multiplier : Text)
    (hf : findListFunction (calleeText t) = some f) :
    Yields (applyList recur f multiplier ((calleeText t).drop f.name.length) t)
      (.direct .application t) := by
  intro s u z h hu
  unfold Eval.applyList at h
  split_ifs at h
  · exact absurd h (refuse_ne_ok hu _)
  · cases hpieces : bracketedList? ((calleeText t).drop f.name.length) with
    | some pieces =>
      rw [hpieces] at h
      dsimp only at h
      split_ifs at h
      · exact absurd h (refuse_ne_ok hu _)
      · obtain ⟨xs, v, hxs, h⟩ := bind_eq_ok.mp h
        obtain ⟨hv, h⟩ := unlessFailed_eq_ok h hu
        obtain ⟨y, hy, hz, rfl⟩ := callList_eq_ok h hu
        obtain ⟨es, ns, hderives, hadds⟩ := yields_arguments hr hyields pieces hxs hv
        exact ⟨_, _, .list hf hpieces hderives hy hz, hadds.step _⟩
    | none =>
      rw [hpieces] at h
      obtain ⟨x, v, hx, h⟩ := bind_eq_ok.mp h
      obtain ⟨hv, h⟩ := unlessFailed_eq_ok h hu
      obtain ⟨y, hy, hz, rfl⟩ := callList_eq_ok h hu
      obtain ⟨es, ns, hderives, hadds⟩ := hyields .application _ hx hv
      exact ⟨_, _, .single hf hderives hy hz, hadds.step _⟩

omit hr in
theorem yields_applyConstant (t : Text) :
    Yields (applyConstant recur t) (.direct .application t) := by
  intro s u z h hu
  unfold Eval.applyConstant at h
  cases hk : findConstant t with
  | none =>
    rw [hk] at h
    obtain ⟨hreads, rfl⟩ := readLiteral_eq_ok h hu
    exact ⟨[], [], .literal hreads, .refl _⟩
  | some k =>
    rw [hk] at h
    obtain ⟨hmem, front, rfl⟩ := mem_of_findConstant hk
    dsimp only at h
    rw [take_name] at h
    -- with a factor or without one, the same steps follow
    have hproduct : ∀ {factor : Float} {v : Progress (σ × List Float)},
        (unlessFailed do
          let result ← requireFinite (factor * k.value) (front ++ k.name.toList)
          noteUnlessFailed (.constant k.name k.value (front ++ k.name.toList))
          return result) v = .ok z u →
        v.failed = false ∧ z = factor * k.value ∧ (factor * k.value).isFinite = true ∧
          u = v.add (.step (.constant k.name k.value (front ++ k.name.toList))) := by
      intro factor v h
      obtain ⟨hv, h⟩ := unlessFailed_eq_ok h hu
      obtain ⟨w, hw, hclear, rfl⟩ := noted_eq_ok h hu
      obtain ⟨rfl, hfinite, rfl⟩ := requireFinite_eq_ok hw hclear
      exact ⟨hv, rfl, hfinite, rfl⟩
    split_ifs at h with hempty
    · rw [pure_bind] at h
      obtain ⟨-, rfl, hfinite, rfl⟩ := hproduct h
      obtain rfl := List.isEmpty_iff.mp hempty
      exact ⟨_, _, .constant hmem hfinite, (Adds.refl s).step _⟩
    · obtain ⟨x, v, hx, h⟩ := bind_eq_ok.mp h
      obtain ⟨hv, rfl, hfinite, rfl⟩ := hproduct h
      obtain ⟨es, ns, hderives, hadds⟩ := hyields .application front hx hv
      exact ⟨_, _, .multiple hmem hderives hfinite, hadds.step _⟩

theorem yields_application (t : Text) : Yields (application recur t) (.direct .application t) := by
  refine Yields.guarded ?_
  dsimp only
  split
  · next f hf => exact yields_applyList hr hyields _ hf
  · split
    · next f hf => exact yields_applyUnary hyields _ hf
    · exact yields_applyConstant hyields t

theorem yields_factorialTier (t : Text) :
    Yields (factorialTier recur t) (.direct .factorial t) := by
  refine Yields.guarded ?_
  intro s u z h hu
  split_ifs at h with hlast
  · exact (yields_application hr hyields t).mono .applied h hu
  · exact absurd h (refuse_ne_ok hu _)
  · obtain ⟨x, v, hx, h⟩ := bind_eq_ok.mp h
    obtain ⟨hv, h⟩ := unlessFailed_eq_ok h hu
    obtain ⟨w, hw, hclear, rfl⟩ := noted_eq_ok h hu
    obtain ⟨⟨n, hn⟩, rfl⟩ := factorial_eq_ok hw hclear
    have ht : t.dropLast ++ ['!'] = t := List.dropLast_append_getLast? '!' (by simpa using hlast)
    obtain ⟨es, ns, hderives, hadds⟩ := hyields .factorial t.dropLast hx hv
    refine ⟨es ++ [.step (.factorial x z t)], ns, ?_, hadds.step _⟩
    have hfactorial := Derives.factorial hderives hn
    rw [ht] at hfactorial
    exact hfactorial

/-- The operand of a cut and its operator, behind what is before the cut. -/
theorem derives_split {looser tighter : List Tier} {tier : Tier} {l r : Text} {c : Char}
    (htiers : Tier.all = looser ++ tier :: tighter) (hlooser : UnsplitBy looser (l ++ c :: r))
    (hc : c ∈ tier.symbols)
    (hlast : splitPoints tier.symbols tier.signed (l ++ c :: r) =
      splitPoints tier.symbols tier.signed l ++ [l.length])
    (hleft : Yields (leftPart (setting.alongside id) recur tier
      (tiersFrom (setting.alongside id) recur tighter) l) (.side tier l)) :
    Yields (splitTier (setting.alongside id) recur tier
      (tiersFrom (setting.alongside id) recur tighter) (l ++ c :: r))
      (.direct .operand (l ++ c :: r)) := by
  intro s u z h hu
  rw [splitTier_snoc hr hlast] at h
  obtain ⟨x, v, hx, h⟩ := bind_eq_ok.mp h
  obtain ⟨hv, h⟩ := unlessFailed_eq_ok h hu
  obtain ⟨y, w, hy, h⟩ := bind_eq_ok.mp h
  obtain ⟨hw, h⟩ := unlessFailed_eq_ok h hu
  obtain ⟨result, q, hresult, h⟩ := bind_eq_ok.mp h
  obtain ⟨hq, h⟩ := unlessFailed_eq_ok h hu
  rw [note_bind] at h
  cases h
  obtain ⟨es, ns, hx, hadds⟩ := hleft hx hv
  obtain ⟨es', ns', hy, hadds'⟩ := yields_operand hyields tier r hy hw
  obtain ⟨rolls, hz, hadds''⟩ := adds_combine hresult hq
  have hall := (hadds.trans hadds').trans
    (hadds''.step (.binary x (Operator.ofSymbol c).symbol y z (l ++ c :: r)))
  rw [List.append_nil] at hall
  exact ⟨_, _, .split htiers hlooser hc hlast hx hy hz, hall⟩

theorem yields_tiersFrom {looser tiers : List Tier} (htiers : Tier.all = looser ++ tiers)
    {t : Text} (ht : UnsplitBy looser t) :
    Yields (tiersFrom (setting.alongside id) recur tiers t) (.direct .operand t) := by
  induction tiers generalizing looser t with
  | nil =>
    rw [List.append_nil] at htiers
    rw [← htiers] at ht
    exact (yields_factorialTier hr hyields t).mono (.unsplit ht)
  | cons tier tighter ih =>
    have hall : Tier.all = looser ++ [tier] ++ tighter := by
      rw [htiers, List.append_assoc, List.singleton_append]
    -- the text on the left is split by the same tier again, so each tier has its own induction
    induction t using splitPoints_induction tier.symbols tier.signed with
    | unsplit t hsplit =>
      rw [tiersFrom, splitTier_of_unsplit hsplit]
      exact (ih hall (ht.snoc hsplit)).guarded
    | snoc l c r hc hlast ihleft =>
      rw [tiersFrom]
      refine derives_split hr hyields htiers ht hc hlast ?_
      unfold leftPart
      split_ifs with hl
      · exact (yields_operand hyields tier l).guarded
      · have hne : l ≠ [] := by
          rintro rfl
          exact hl rfl
        exact (ihleft ht.of_append).mono (.chain hne)

theorem yields_operators (t : Text) :
    Yields (operators (setting.alongside id) recur t) (.direct .operand t) := by
  have hnone : UnsplitBy [] t := fun _ h => nomatch h
  have htiers : Tier.all = [] ++ Tier.all := rfl
  exact yields_tiersFrom hr hyields htiers hnone

/-- As long as there is a group one round takes one out of the text. -/
theorem yields_foldGroups {rounds : Nat} {t : Text} (hclose : t.count ')' = rounds)
    (hopen : t.count '(' = rounds) : Yields (foldGroups recur rounds t) (.folds t) := by
  induction rounds generalizing t with
  | zero =>
    intro s u flat h _
    cases h
    have hflat : Flat t := ⟨List.count_eq_zero.mp hopen, List.count_eq_zero.mp hclose⟩
    exact ⟨[], [], .flat hflat, .refl s⟩
  | succ rounds ih =>
    intro s u flat h hu
    -- the rounds that are left are as many as the closers, so there still is a group
    have hmem : ')' ∈ t := List.count_pos_iff.mp (by omega)
    obtain ⟨-, before, inner, after, folded, v, rfl, hbefore, hinner, hfirst, hv, hrest⟩ :=
      exists_first_round hr hmem h hu
    obtain ⟨-, ⟨-, -, rfl, rfl⟩ | ⟨-, x, w, hx, hw, hfinite, rfl, rfl⟩⟩ := foldGroup_eq_ok hfirst hv
    · obtain ⟨hclose', hopen'⟩ :=
        count_folded hinner (flat_bracketed hinner) hclose hopen
      obtain ⟨es, ns, hfolds, hadds⟩ := ih hclose' hopen' hrest hu
      exact ⟨_, _, .listed hinner hfolds, ((Adds.refl s).step (listStep inner)).trans hadds⟩
    · obtain ⟨hclose', hopen'⟩ :=
        count_folded hinner (flat_valueText before after hfinite) hclose hopen
      obtain ⟨es, ns, hx, hadds⟩ := hyields .whole inner hx hw
      obtain ⟨es', ns', hfolds, hadds'⟩ := ih hclose' hopen' hrest hu
      refine ⟨_, _, .valued hinner hx hfinite hfolds, ?_⟩
      have hall := (hadds.step (valueStep inner x)).trans hadds'
      rw [List.append_assoc, List.singleton_append] at hall
      exact hall

theorem yields_groupsThenOperators (t : Text) :
    Yields (groupsThenOperators (setting.alongside id) recur t) (.direct .whole t) := by
  intro s u x h hu
  obtain ⟨flat, v, hflat, h⟩ := bind_eq_ok.mp h
  obtain ⟨hv, h⟩ := unlessFailed_eq_ok h hu
  obtain ⟨hround, -, hfold⟩ := even_of_resolveGroups hflat hv
  obtain ⟨es, ns, hfolds, hadds⟩ := yields_foldGroups hr hyields rfl hround hfold hv
  obtain ⟨es', ns', hx, hadds'⟩ := yields_operators hr hyields flat h hu
  exact ⟨_, _, .whole hfolds hx, hadds.trans hadds'⟩

theorem yields_step (entry : Entry) (t : Text) :
    Yields (Eval.step (setting.alongside id) recur entry t) (.direct entry t) := by
  cases entry with
  | whole => exact yields_groupsThenOperators hr hyields t
  | operand => exact yields_operators hr hyields t
  | factorial => exact yields_factorialTier hr hyields t
  | application => exact yields_application hr hyields t

end Parts

/-! ## Whole runs -/

/-- Every nested evaluation without a problem has a derivation, by induction on the levels. -/
theorem yields_descendKeeping (setting : Setting σ) (levels : Nat) (entry : Entry) (t : Text) :
    Yields (descendKeeping setting levels entry t) (.nested entry t) := by
  induction levels generalizing entry t with
  | zero =>
    intro s u x h hu
    exact absurd (unlessFailed_eq_ok h hu).2 (refuse_ne_ok hu _)
  | succ levels ih =>
    intro s u x h hu
    obtain ⟨-, h⟩ := unlessFailed_eq_ok h hu
    obtain ⟨y, v, hy, h⟩ := bind_eq_ok.mp h
    obtain ⟨-, w, hw, rfl⟩ := nested_eq_ok.mp hy
    cases h
    obtain ⟨es, ns, hderives, hadds⟩ :=
      yields_step (stops_descendKeeping setting levels) ih entry t hw hu
    refine ⟨es, ns ++ [x], .nested hderives, hadds.events, ?_⟩
    show w.dice.2 ++ [x] = _
    rw [hadds.kept, List.append_assoc]
    rfl

/-- What a run without a problem is about is derived, if the run that keeps values yields it. -/
theorem exists_derives_of_projects {m : Eval (σ × List Float) α} {m' : Eval σ α}
    {judgement : α → Judgement} (hm : Projects m m') (hyields : Yields m judgement)
    {s u : Progress σ} {a : α} (h : m' s = .ok a u) (hu : u.failed = false) :
    ∃ es ns, Derives (judgement a) es ns := by
  obtain ⟨start, hstart⟩ : ∃ start : Progress (σ × List Float), start.project = s :=
    ⟨{ ledger := s.ledger, dice := (s.dice, []), depth := s.depth, deepest := s.deepest }, rfl⟩
  have hproject := hm start
  rw [hstart, h] at hproject
  cases hrun : m start with
  | error fault v => rw [hrun] at hproject; cases hproject
  | ok b v =>
    rw [hrun] at hproject
    cases hproject
    obtain ⟨es, ns, hderives, -⟩ := hyields hrun hu
    exact ⟨es, ns, hderives⟩

/-- The values of all nested evaluations that an expression leads to. -/
def keptValues (setting : Setting σ) (dice : σ) (expression : Text) (stack : Stack := .ample) :
    List Float :=
  let run : Eval (σ × List Float) Float stack :=
    descendKeeping setting setting.limits.maxDepth.toNat .whole expression.withoutBlanks
  (lastState (run { dice := (dice, []) })).dice.2

/-- Runs that keep values are cut short by a stack as others are. -/
theorem truncatedAtMost_descendKeeping (stack : Stack) (setting : Setting σ) (levels : Nat)
    (entry : Entry) (t : Text) :
    TruncatedAtMost (descendKeeping setting levels entry t : Eval (σ × List Float) Float stack)
      (descendKeeping setting levels entry t) := by
  have h := TruncatedAtMost.congruence stack (setting.alongside (id : List Float → List Float))
  induction levels generalizing entry t with
  | zero => exact h.unlessFailed (h.refuse trivial)
  | succ levels ih =>
    have hkeep : ∀ x : Float, TruncatedAtMost (keep x : Eval (σ × List Float) Unit stack)
        (keep x) := fun x =>
      .of_blind (fun _ => ⟨List.prefix_rfl, id, rfl, le_refl _⟩) (fun _ => rfl) fun _ => rfl
    exact h.unlessFailed ((h.deeper (h.evalStep ih entry t)).sequence fun x =>
      (hkeep x).sequence fun _ => .answer x)

/-- Without a problem the values on a stack are those on the ample one. -/
theorem keptValues_of_success {stack : Stack} {setting : Setting σ} {dice after : σ} {t : Text}
    {e : Evaluation} (h : evaluateExpression setting dice t stack = .ok (e, after))
    (he : e.failed = false) : keptValues setting dice t stack = keptValues setting dice t := by
  obtain ⟨levels, u, hlevels, hrun, -⟩ := exists_run_of_success h he
  let start : Progress (σ × List Float) := { dice := (dice, []) }
  have hproject :
      descend setting (levels + 1) .whole t.withoutBlanks (start.onStack stack).project =
        projectEnd
          (descendKeeping setting (levels + 1) .whole t.withoutBlanks (start.onStack stack)) :=
    projects_descendKeeping setting (levels + 1) .whole t.withoutBlanks (start.onStack stack)
  rw [show (start.onStack stack).project = { dice } from rfl, hrun] at hproject
  have hcut := (truncatedAtMost_descendKeeping stack setting (levels + 1) .whole
    t.withoutBlanks).truncated start (le_refl 0)
  have hstack : keptValues setting dice t stack =
      (lastState ((descendKeeping setting (levels + 1) .whole t.withoutBlanks : Eval _ Float stack)
        (start.onStack stack))).dice.2 := by
    rw [keptValues, hlevels]
    rfl
  have hample : keptValues setting dice t =
      (lastState (descendKeeping setting (levels + 1) .whole t.withoutBlanks start)).dice.2 := by
    rw [keptValues, hlevels]
  rw [hstack, hample]
  cases hcut with
  | spared hend =>
    rw [hend]
    cases descendKeeping setting (levels + 1) .whole t.withoutBlanks start <;> rfl
  | short hexhausted =>
    obtain ⟨_, _, hr, -⟩ := hexhausted
    rw [hr] at hproject
    cases hproject

/-- **Derivations.** An expression that is evaluated without a problem has a derivation, which
makes the entries of its ledger and comes to its value. -/
theorem derives_of_success {stack : Stack} {setting : Setting σ} {dice after : σ} {t : Text}
    {e : Evaluation} (hstack : evaluateExpression setting dice t stack = .ok (e, after))
    (he : e.failed = false) :
    Derives (.nested .whole t.withoutBlanks e.value) e.ledger.events
      (keptValues setting dice t stack) := by
  rw [keptValues_of_success hstack he]
  obtain ⟨⟨h, -⟩, -⟩ := success_iff_nests.mp ⟨hstack, he⟩
  obtain ⟨levels, u, hlevels, hrun, hu, -, hledger, -⟩ := exists_run_of_success h he
  let start : Progress (σ × List Float) := { dice := (dice, []) }
  have hproject : descend setting (levels + 1) .whole t.withoutBlanks { dice } =
      projectEnd (descendKeeping setting (levels + 1) .whole t.withoutBlanks start) :=
    projects_descendKeeping setting (levels + 1) .whole t.withoutBlanks start
  rw [hrun] at hproject
  rw [keptValues, hlevels]
  cases hkept : descendKeeping setting (levels + 1) .whole t.withoutBlanks start with
  | error fault v => rw [hkept] at hproject; cases hproject
  | ok x v =>
    rw [hkept] at hproject
    cases hproject
    obtain ⟨es, ns, hderives, hadds⟩ :=
      yields_descendKeeping setting (levels + 1) .whole t.withoutBlanks hkept hu
    have hevents : e.ledger.events = es := by
      rw [← hledger]
      exact hadds.events
    have hkeeps : v.dice.2 = ns := hadds.kept
    rw [hevents, lastState, hkeeps]
    exact hderives

end Reckoner

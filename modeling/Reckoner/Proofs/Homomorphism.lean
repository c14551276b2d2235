import Reckoner.Proofs.Exhaustion
import Reckoner.Proofs.Splice

/-!
# Groups are homomorphic

Two expressions in round brackets with an operator between them: the first is evaluated as it
would be alone, then the second from where the first leaves the dice, then the operator is
applied to both values (`evaluateExpression_joined`). A single expression in brackets has the
value that it has without them.
-/

namespace Reckoner

open Eval

variable {σ : Type} {setting : Setting σ} {recur : Recur σ}

/-! ## Two numbers and an operator -/

theorem unsplit_number {n : Numeral} (hn : n.Regular) (negative : Bool) {tier : Tier}
    (ht : tier ∈ Tier.all) (previous : Option Char) :
    Unsplit tier.symbols tier.signed 0 previous (signedNumeral negative n) := by
  rcases List.mem_cons.mp ht with rfl | ht
  · exact unsplit_additive_signedNumeral hn negative previous
  · exact unsplit_signedNumeral hn negative ht previous

/-- The cut of an operator between two texts. -/
def cutBetween (l : Text) (o : Operator) (r : Text) : Cut where
  operator := o
  right := r
  fragment := l ++ o.symbol :: r

section Numbers

variable {m n : Numeral} (hm : m.Regular) (hn : n.Regular) (negative negative' : Bool)
  {tier : Tier} (ht : tier ∈ Tier.all) {next : Text → Eval σ Float} (o : Operator)
include hm hn ht

/-- A tier splits two numbers at an operator between them, if it is one of its own. -/
theorem splitTier_numbers (hr : ∀ entry t, Stops IsOne (recur entry t)) :
    splitTier setting recur tier next
        (signedNumeral negative m ++ o.symbol :: signedNumeral negative' n) =
      if o ∈ tier.operators then
        unlessFailed (operand recur tier.neutral (signedNumeral negative m)) >>= fun x =>
          unlessFailed (applyCut setting recur tier.neutral x
            (cutBetween (signedNumeral negative m) o (signedNumeral negative' n)))
      else unlessFailed (next
        (signedNumeral negative m ++ o.symbol :: signedNumeral negative' n)) := by
  have hleft := unsplit_number hm negative ht none
  have hright := fun previous => unsplit_number hn negative' ht previous
  have hsealed : Sealed (fun _ => True) (signedNumeral negative m) :=
    sealed_signedNumeral hm negative fun _ _ => trivial
  have hdepth := hsealed.depthOver_eq 0
  obtain ⟨d, hlast, hend⟩ := lastOf_signedNumeral hm negative none
  split_ifs with ho
  · have hsplit : isSplit tier.symbols tier.signed (some d) o.symbol = true := by
      have hlead := not_isSignLead_of_isNumberEnd hend
      simp [isSplit, symbol_mem_symbols ho, isBracket_symbol, hlead]
    rw [← hlast] at hsplit
    have hpoints := splitPoints_snoc hdepth hsplit (hright _)
    have hunsplit : splitPoints tier.symbols tier.signed (signedNumeral negative m) = [] := hleft 0
    rw [splitTier_snoc hr hpoints, leftPart, if_pos hunsplit, Operator.ofSymbol_symbol]
    rfl
  · refine splitTier_of_unsplit (Unsplit.append hleft ?_ 0)
    rw [hdepth]
    refine .cons (fun _ => isSplit_of_not_mem (symbol_not_mem_symbols ho)) ?_
    rw [depthAfter_of_not_isBracket (isBracket_symbol o)]
    exact hright _

end Numbers

section Literals

variable {x y : Float} (hx : x.isFinite = true) (hy : y.isFinite = true) (o : Operator)
  (levels : Nat) {s : Progress σ} (hs : s.failed = false)
include hx hy hs

/-- Whichever tier has the operator evaluates both operands and applies it. -/
theorem applyCut_literals (neutral : Float) :
    (unlessFailed (operand (descend setting (levels + 1)) neutral (literalText x)) >>= fun v =>
      unlessFailed (applyCut setting (descend setting (levels + 1)) neutral v
        (cutBetween (literalText x) o (literalText y)))) s =
      finishCut setting x y (cutBetween (literalText x) o (literalText y))
        (visited (visited s)) := by
  have hleft : unlessFailed (operand (descend setting (levels + 1)) neutral (literalText x)) s =
      .ok x (visited s) := by
    rw [unlessFailed_of_not_failed hs, operand_literalText hx levels neutral hs]
  have hv : (visited s).failed = false := hs
  have hright : operand (descend setting (levels + 1)) neutral
      (cutBetween (literalText x) o (literalText y)).right (visited s) =
        .ok y (visited (visited s)) := operand_literalText hy levels neutral hv
  have hvv : (visited (visited s)).failed = false := hs
  rw [bind_of_ok hleft, unlessFailed_of_not_failed hv, applyCut, bind_of_ok hright,
    unlessFailed_of_not_failed hvv]

/-- **Two values.** Between the texts of two finite doubles an operator is applied to them. -/
theorem operators_literals :
    operators setting (descend setting (levels + 1))
        (literalText x ++ o.symbol :: literalText y) s =
      finishCut setting x y (cutBetween (literalText x) o (literalText y))
        (visited (visited s)) := by
  have happlied := fun o => @applyCut_literals σ setting x y hx hy o levels s hs
  obtain ⟨negative, m, hxtext, hm, -⟩ := exists_numeral_of_isFinite hx
  obtain ⟨negative', n, hytext, hn, -⟩ := exists_numeral_of_isFinite hy
  have htier := fun tier ht next => @splitTier_numbers σ setting _ m n hm hn negative negative'
    tier ht next o (stops_descend setting (levels + 1))
  rw [← hxtext, ← hytext] at htier
  rw [operators, htier .additive (by simp [Tier.all]), htier .multiplicative (by simp [Tier.all]),
    htier .powers (by simp [Tier.all]), htier .diceAndModulo (by simp [Tier.all])]
  -- the tiers that do not have the operator hand both numbers on to the next one
  cases o with
  | plus | minus => rw [if_pos (by decide), happlied]
  | times | divide =>
    rw [if_neg (by decide), if_pos (by decide), unlessFailed_of_not_failed hs, happlied]
  | power =>
    rw [if_neg (by decide), if_neg (by decide), if_pos (by decide),
      unlessFailed_of_not_failed hs, unlessFailed_of_not_failed hs, happlied]
  | modulo | dice =>
    rw [if_neg (by decide), if_neg (by decide), if_neg (by decide), if_pos (by decide),
      unlessFailed_of_not_failed hs, unlessFailed_of_not_failed hs,
      unlessFailed_of_not_failed hs, happlied]

end Literals

/-! ## Finished evaluations -/

/-- A successful evaluation is a run of the evaluator with a finite value. -/
theorem exists_run_of_success {stack : Stack} {dice after : σ} {t : Text} {e : Evaluation}
    (h : evaluateExpression setting dice t stack = .ok (e, after)) (he : e.failed = false) :
    ∃ levels, ∃ u : Progress σ stack, setting.limits.maxDepth.toNat = levels + 1 ∧
      descend setting (levels + 1) .whole t.withoutBlanks { dice } = .ok e.value u ∧
      u.failed = false ∧ e.value.isFinite = true ∧ u.ledger = e.ledger ∧ u.dice = after := by
  obtain ⟨value, u, hrun, rfl, rfl⟩ := run_of_success h he
  have hu : u.failed = false := he
  have hclear : u.failed ≠ true := by
    rw [hu]
    exact Bool.false_ne_true
  unfold evaluateBare at hrun
  split_ifs at hrun
  · exact absurd (failed_of_enter_return hrun) hclear
  · exact absurd (failed_of_enter_return hrun) hclear
  · obtain ⟨x, v, hv, hrun⟩ := bind_eq_ok.mp hrun
    rw [failed_bind] at hrun
    split_ifs at hrun with hcheck
    · exact absurd (failed_of_enter_return hrun) hclear
    · cases hrun
      obtain ⟨levels, hlevels⟩ := exists_levels_of_clear hv hu
      rw [evaluate, topmost, hlevels] at hv
      exact ⟨levels, u, hlevels, hv, hu, by simpa [hu] using hcheck, rfl, rfl⟩

/-! ## Groups of expressions -/

/-- An expression in round brackets. -/
def grouped (t : Text) : Text := '(' :: (t ++ [')'])

/-- Two expressions in round brackets with an operator between them. -/
def joined (a : Text) (o : Operator) (b : Text) : Text := grouped a ++ o.symbol :: grouped b

/-- The same setting with one level more, and with another bound on the length. -/
def Setting.roomier (setting : Setting σ) (maxLength : Int) : Setting σ :=
  { setting with
    limits := { setting.limits with maxDepth := setting.limits.maxDepth + 1, maxLength } }

/-- The step that a group notes whose contents evaluate to a value by themselves. -/
def groupStep (setting : Setting σ) (dice : σ) (t : Text) (value : Float) : Step :=
  valueStep (foldedText setting (setting.limits.maxDepth.toNat - 1) t.withoutBlanks { dice }) value

theorem withoutBlanks_append (a b : Text) :
    (a ++ b).withoutBlanks = a.withoutBlanks ++ b.withoutBlanks :=
  List.filter_append a b

theorem withoutBlanks_grouped (t : Text) :
    (grouped t).withoutBlanks = grouped t.withoutBlanks := by
  have hopen : isBlank '(' = false := by decide
  have hclose : isBlank ')' = false := by decide
  simp [grouped, Text.withoutBlanks, hopen, hclose]

theorem withoutBlanks_joined (a : Text) (o : Operator) (b : Text) :
    (joined a o b).withoutBlanks = joined a.withoutBlanks o b.withoutBlanks := by
  have hsymbol : isBlank o.symbol = false := by cases o <;> decide
  have hcons : ∀ x : Text, Text.withoutBlanks (o.symbol :: x) = o.symbol :: x.withoutBlanks := by
    intro x
    simp [Text.withoutBlanks, hsymbol]
  rw [joined, withoutBlanks_append, hcons, withoutBlanks_grouped, withoutBlanks_grouped]
  rfl

theorem varied_roomier (setting : Setting σ) (maxLength : Int) (lost : Problem → Prop)
    (exact : Prop) : Varied setting (setting.roomier maxLength) lost exact where
  source := rfl
  dice := .inl rfl
  budgets _ := ⟨rfl, rfl⟩

/-- An evaluation whose groups all fold comes to what the operators make of the text that is
left; its value is judged at the end. -/
theorem evaluateExpression_of_folded {levels : Nat} {dice : σ} {t flat : Text} {v : Progress σ}
    (hne : t.withoutBlanks ≠ [])
    (hlength : (t.withoutBlanks.length : Int) ≤ setting.limits.maxLength)
    (hlevels : setting.limits.maxDepth.toNat = levels + 1)
    (hround : t.withoutBlanks.count '(' = t.withoutBlanks.count ')')
    (hsquare : t.withoutBlanks.count '[' = t.withoutBlanks.count ']')
    (hfold : foldGroups (descend setting levels) (t.withoutBlanks.count ')') t.withoutBlanks
      (deeper { dice }) = .ok flat v)
    (hv : v.failed = false) :
    evaluateExpression setting dice t =
      match operators setting (descend setting levels) flat v with
      | .ok x u =>
        .ok ({ expression := t
               value := x
               ledger := if !u.failed && !x.isFinite then u.ledger.raise.add (.problem .resultTooLarge)
                 else u.ledger }, u.dice)
      | .error fault _ => .error fault := by
  have hclear : ({ dice } : Progress σ).failed = false := rfl
  have hstep : Eval.step setting (descend setting levels) .whole t.withoutBlanks
      (deeper { dice }) = operators setting (descend setting levels) flat v := by
    show groupsThenOperators setting (descend setting levels) t.withoutBlanks _ = _
    rw [groupsThenOperators, resolveGroups_of_even hround, if_pos hsquare, bind_of_ok hfold,
      unlessFailed_of_not_failed hv]
  rw [evaluateExpression_of_short hne hlength, topmost, hlevels, descend,
    unlessFailed_of_not_failed hclear, nested_apply, hstep]
  cases operators setting (descend setting levels) flat v <;> rfl

theorem timesBeside_symbol (o : Operator) : timesBeside (some o.symbol) = [] := by
  cases o <;> decide

theorem count_grouped (t : Text) (c : Char) :
    (grouped t).count c = [ '(' ].count c + t.count c + [ ')' ].count c := by
  rw [grouped, ← List.singleton_append, List.count_append, List.count_append, Nat.add_assoc]

theorem even_grouped {t : Text} (hround : t.count '(' = t.count ')')
    (hsquare : t.count '[' = t.count ']') :
    (grouped t).count '(' = (grouped t).count ')' ∧
      (grouped t).count '[' = (grouped t).count ']' := by
  simp only [count_grouped, hround, hsquare]
  simp
  omega

section Joined

variable {a b : Text} {s₀ s₁ s₂ : σ} {ea eb : Evaluation} (maxLength : Int)
  (ha : evaluateExpression setting s₀ a = .ok (ea, s₁)) (hea : ea.failed = false)
include ha hea

/-- What the rounds for one group leave, if the group's contents are evaluated from there. -/
theorem foldGroups_success {s : Progress σ} (hdice : s.dice = s₀) (hs : s.failed = false)
    {before : Text} (hbefore : ')' ∉ before) (after : Text) (more : Nat) :
    ∃ v entries, v.dice = s₁ ∧ v.failed = false ∧ Matching ea.ledger.events entries ∧
      v.ledger.events =
        s.ledger.events ++ entries ++ [.step (groupStep setting s₀ a ea.value)] ∧
      foldGroups (descend (setting.roomier maxLength) setting.limits.maxDepth.toNat)
          (a.withoutBlanks.count ')' + (more + 1))
          (before ++ '(' :: (a.withoutBlanks ++ ')' :: after)) s =
        foldGroups (descend (setting.roomier maxLength) setting.limits.maxDepth.toNat) more
          (before ++ valueText before ea.value after ++ after) v := by
  obtain ⟨levels, u, hlevels, hrun, hu, hvalue, hledger, hafter⟩ := exists_run_of_success ha hea
  have hvaried := varied_roomier setting maxLength (fun _ => True) False
  have halike : Alike False ({ dice := s₀ } : Progress σ) s := .of_ample hdice hs False.elim
  obtain ⟨v, htracks, hfold⟩ :=
    foldGroups_group hvaried (fun _ => trivial) hrun hu hvalue halike hbefore after more
  obtain ⟨xs, xs', hx, hx', hmatch, -⟩ := htracks.entries
  have hxs : xs = ea.ledger.events := by rw [← hledger, hx]; rfl
  refine ⟨v.add (.step (groupStep setting s₀ a ea.value)), xs', ?_, ?_, hxs ▸ hmatch, ?_, ?_⟩
  · rw [Progress.add_dice, htracks.alike.dice, hafter]
  · rw [Progress.failed_add_step, htracks.alike.failed, hu]
  · rw [Progress.add_events, hx']
  · rw [hlevels, hfold, groupStep, hlevels]
    rfl

omit hea in
theorem levels_roomier (hea : ea.failed = false) :
    (setting.roomier maxLength).limits.maxDepth.toNat = setting.limits.maxDepth.toNat + 1 := by
  obtain ⟨levels, -, hlevels, -⟩ := exists_run_of_success ha hea
  show (setting.limits.maxDepth + 1).toNat = _
  omega

/-- The brackets of an expression that is evaluated without a problem are even in number. -/
theorem even_of_success :
    a.withoutBlanks.count '(' = a.withoutBlanks.count ')' ∧
      a.withoutBlanks.count '[' = a.withoutBlanks.count ']' := by
  obtain ⟨levels, u, -, hrun, hu, -⟩ := exists_run_of_success ha hea
  have hparts := parts_of_clear hrun hu
  exact ⟨hparts.round, hparts.square⟩

/-- **A group alone.** It has the value of its contents. -/
theorem evaluateExpression_grouped
    (hlength : ((grouped a).withoutBlanks.length : Int) ≤ maxLength) :
    ∃ e, evaluateExpression (setting.roomier maxLength) s₀ (grouped a) = .ok (e, s₁) ∧
      e.failed = false ∧ e.value = ea.value ∧
      Matching (ea.ledger.events ++ [.step (groupStep setting s₀ a ea.value)]) e.ledger.events := by
  obtain ⟨levels, u, hlevels, -, -, hvalue, -⟩ := exists_run_of_success ha hea
  obtain ⟨hround, hsquare⟩ := even_of_success ha hea
  obtain ⟨v, entries, hdice, hv, hmatch, hevents, hfold⟩ :=
    foldGroups_success maxLength ha hea (s := deeper { dice := s₀ }) rfl rfl
      (List.not_mem_nil (a := ')')) [] 0
  have hflat : ([] : Text) ++ valueText [] ea.value [] ++ [] = literalText ea.value := by
    simp [valueText, timesBeside]
  have hbare := withoutBlanks_grouped a
  have hcount : (grouped a).withoutBlanks.count ')' = a.withoutBlanks.count ')' + (0 + 1) := by
    rw [hbare, count_grouped]
    simp
  obtain ⟨hround', hsquare'⟩ := even_grouped hround hsquare
  rw [← hbare] at hround' hsquare'
  have hgroups : foldGroups (descend (setting.roomier maxLength) setting.limits.maxDepth.toNat)
      ((grouped a).withoutBlanks.count ')') (grouped a).withoutBlanks (deeper { dice := s₀ }) =
        .ok (literalText ea.value) v := by
    rw [hcount, hbare, ← hflat]
    exact hfold
  have hoperators : operators (setting.roomier maxLength)
      (descend (setting.roomier maxLength) setting.limits.maxDepth.toNat)
      (literalText ea.value) v = .ok ea.value v := step_literalText hvalue .operand hv
  have hne : (grouped a).withoutBlanks ≠ [] := hbare ▸ List.cons_ne_nil _ _
  have hrun := evaluateExpression_of_folded hne hlength (levels_roomier maxLength ha hea) hround'
    hsquare' hgroups hv
  rw [hoperators] at hrun
  dsimp only at hrun
  rw [hvalue, Bool.not_true, Bool.and_false, if_neg Bool.false_ne_true, hdice] at hrun
  refine ⟨_, hrun, hv, rfl, ?_⟩
  show Matching _ v.ledger.events
  rw [hevents]
  exact hmatch.append (.refl _)

omit ha hea in
theorem count_joined (o : Operator) (a b : Text) {c : Char} (hc : isBracket c = true) :
    (joined a o b).count c = (grouped a).count c + (grouped b).count c := by
  have hsymbol : o.symbol ≠ c := by
    rintro rfl
    rw [isBracket_symbol] at hc
    cases hc
  rw [joined, List.count_append, List.count_cons_of_ne hsymbol]

variable (hb : evaluateExpression setting s₁ b = .ok (eb, s₂)) (heb : eb.failed = false)
  (o : Operator)
include hb heb

/-- What is left of two groups with an operator between them: their values. -/
theorem foldGroups_joined :
    ∃ (v : Progress σ) (xs ys : List Event), v.dice = s₂ ∧ v.failed = false ∧
      Matching ea.ledger.events xs ∧ Matching eb.ledger.events ys ∧
      v.ledger.events = xs ++ [.step (groupStep setting s₀ a ea.value)] ++ ys ++
        [.step (groupStep setting s₁ b eb.value)] ∧
      foldGroups (descend (setting.roomier maxLength) setting.limits.maxDepth.toNat)
          ((joined a o b).withoutBlanks.count ')') (joined a o b).withoutBlanks
          (deeper { dice := s₀ }) =
        .ok (literalText ea.value ++ o.symbol :: literalText eb.value) v := by
  obtain ⟨levels, u, hlevels, -, -, hvalue, -⟩ := exists_run_of_success ha hea
  obtain ⟨v, xs, hvdice, hv, hxs, hvevents, hfirst⟩ :=
    foldGroups_success maxLength ha hea (s := deeper { dice := s₀ }) rfl rfl
      (List.not_mem_nil (a := ')')) (o.symbol :: grouped b.withoutBlanks)
      (b.withoutBlanks.count ')' + (0 + 1))
  -- the value of the first group and the operator have no closer
  have hbefore : ')' ∉ literalText ea.value ++ [o.symbol] := by
    rw [List.mem_append, List.mem_singleton]
    rintro (h | h)
    · have := isBracket_of_isNumberChar (isNumberChar_of_mem_literalText hvalue _ h)
      cases this
    · have := isBracket_symbol o
      rw [← h] at this
      cases this
  obtain ⟨w, ys, hwdice, hw, hys, hwevents, hsecond⟩ :=
    foldGroups_success maxLength hb heb hvdice hv hbefore [] 0
  refine ⟨w, xs, ys, hwdice, hw, hxs, hys, ?_, ?_⟩
  · rw [hwevents, hvevents]
    rfl
  · have hcount : (joined a o b).withoutBlanks.count ')' =
        a.withoutBlanks.count ')' + (b.withoutBlanks.count ')' + (0 + 1) + 1) := by
      rw [withoutBlanks_joined, count_joined _ _ _ rfl, count_grouped, count_grouped]
      simp
      omega
    have hmiddle : ([] : Text) ++ valueText [] ea.value (o.symbol :: grouped b.withoutBlanks) ++
        o.symbol :: grouped b.withoutBlanks =
          literalText ea.value ++ [o.symbol] ++ '(' :: (b.withoutBlanks ++ ')' :: []) := by
      simp [valueText, timesBeside_symbol, grouped]
      rfl
    have hlast : literalText ea.value ++ [o.symbol] ++
        valueText (literalText ea.value ++ [o.symbol]) eb.value [] ++ [] =
          literalText ea.value ++ o.symbol :: literalText eb.value := by
      have hnone : timesBeside none = [] := rfl
      simp [valueText, timesBeside_symbol, hnone]
    have htext : joined a.withoutBlanks o b.withoutBlanks =
        [] ++ '(' :: (a.withoutBlanks ++ ')' :: o.symbol :: grouped b.withoutBlanks) := by
      simp [joined, grouped]
    rw [hmiddle, hsecond, hlast] at hfirst
    rw [hcount, withoutBlanks_joined, htext, hfirst]
    rfl

omit ha hea hb heb in
variable (setting) in
/-- An operator does the same from every state with the same dice. -/
theorem ends_combine (x y : Float) (fragment : Text) {s : Progress σ} (hdice : s.dice = s₂)
    (hs : s.failed = false) :
    EndAlike False { dice := s₂ } s (combine setting o x y fragment { dice := s₂ })
      (combine (setting.roomier maxLength) o x y fragment s) := by
  have hvaried := varied_roomier setting maxLength (fun _ => False) False
  have hfollows : Follows setting (fun _ => False) False
      (combine setting o x y fragment : Eval σ Float) _ :=
    (Follows.congruence hvaried).combine o x y fragment
  have halike : Alike False ({ dice := s₂ } : Progress σ) s := .of_ample hdice hs False.elim
  rcases hfollows.ends halike with (⟨-, _, _, -, -, hlost⟩ | ⟨⟨_, hlost⟩, -⟩) | hends
  · exact hlost.elim
  · exact hlost.elim
  · exact hends

/-- What comes after the values of two groups: what the operator enters, the step that notes
its result, and a problem if this is not finite. -/
def closing (o : Operator) (x y z : Float) (t : Progress σ) : List Event :=
  if t.failed then t.ledger.events
  else
    t.ledger.events ++ .step (.binary x o.symbol y z (literalText x ++ o.symbol :: literalText y)) ::
      (if z.isFinite then [] else [.problem .resultTooLarge])

omit ha hea hb heb in
/-- The end of an evaluation of two groups, once their operator has been applied. -/
theorem exists_of_closing {x y z : Float} {entries : List Event} {t u : Progress σ}
    {expression : Text} {result : Except Fault (Evaluation × σ)} (hfailed : u.failed = t.failed)
    (hdice : u.dice = t.dice) (hentries : Matching (entries ++ t.ledger.events) u.ledger.events)
    (h : result =
      match (if u.failed then .ok 1.0 u
        else .ok z (u.add (.step (.binary x o.symbol y z
          (literalText x ++ o.symbol :: literalText y)))) :
          EStateM.Result Fault (Progress σ) Float) with
      | .ok value v =>
        .ok ({ expression
               value
               ledger :=
                 if !v.failed && !value.isFinite then v.ledger.raise.add (.problem .resultTooLarge)
                 else v.ledger }, v.dice)
      | .error fault _ => .error fault) :
    ∃ e, result = .ok (e, t.dice) ∧ e.failed = (t.failed || !z.isFinite) ∧
      (e.failed = false → e.value = z) ∧ Matching (entries ++ closing o x y z t) e.ledger.events := by
  by_cases ht : t.failed = true
  · rw [ht] at hfailed
    rw [if_pos hfailed] at h
    dsimp only at h
    rw [hfailed, Bool.not_true, Bool.false_and, if_neg Bool.false_ne_true, hdice] at h
    refine ⟨_, h, ?_, fun hclear => ?_, ?_⟩
    · rw [ht, Bool.true_or]
      exact hfailed
    · rw [show u.failed = false from hclear] at hfailed
      cases hfailed
    · rw [closing, if_pos ht]
      exact hentries
  · rw [Bool.not_eq_true] at ht
    rw [ht] at hfailed
    have hnoted : (u.add (.step (.binary x o.symbol y z
        (literalText x ++ o.symbol :: literalText y)))).failed = false := by
      rw [Progress.failed_add_step, hfailed]
    rw [hfailed, if_neg Bool.false_ne_true] at h
    dsimp only at h
    rw [closing, ht, if_neg Bool.false_ne_true, ← List.append_assoc]
    generalize Event.step (.binary x o.symbol y z
      (literalText x ++ o.symbol :: literalText y)) = step at h hnoted ⊢
    rw [hnoted, Bool.not_false, Bool.true_and, Progress.add_dice, hdice] at h
    cases hfinite : z.isFinite with
    | true =>
      rw [hfinite, Bool.not_true, if_neg Bool.false_ne_true] at h
      exact ⟨_, h, hnoted, fun _ => rfl, hentries.append (.refl _)⟩
    | false =>
      rw [hfinite, Bool.not_false, if_pos rfl] at h
      have hrefused := Progress.failed_add_problem (u.add step) .resultTooLarge
      refine ⟨_, h, hrefused, fun hclear => ?_, ?_⟩
      · have hcontra : true = false := hrefused.symm.trans hclear
        cases hcontra
      · have hall := (hentries.append (.refl [step])).append (.refl [.problem .resultTooLarge])
        rw [List.append_assoc] at hall
        exact hall

/-- **Two groups and an operator.** The groups are evaluated one after the other, and the
operator is applied to their values with the dice as the second leaves them. -/
theorem evaluateExpression_joined
    (hlength : ((joined a o b).withoutBlanks.length : Int) ≤ maxLength) :
    match combine setting o ea.value eb.value
        (literalText ea.value ++ o.symbol :: literalText eb.value) { dice := s₂ } with
    | .error fault _ =>
      evaluateExpression (setting.roomier maxLength) s₀ (joined a o b) = .error fault
    | .ok x t =>
      ∃ e, evaluateExpression (setting.roomier maxLength) s₀ (joined a o b) = .ok (e, t.dice) ∧
        e.failed = (t.failed || !x.isFinite) ∧ (e.failed = false → e.value = x) ∧
        Matching (ea.ledger.events ++ [.step (groupStep setting s₀ a ea.value)] ++
          eb.ledger.events ++ [.step (groupStep setting s₁ b eb.value)] ++
          closing o ea.value eb.value x t) e.ledger.events := by
  obtain ⟨v, xs, ys, hdice, hv, hxs, hys, hevents, hfold⟩ :=
    foldGroups_joined maxLength ha hea hb heb o
  obtain ⟨levels, -, hlevels, -, -, hvalue, -⟩ := exists_run_of_success ha hea
  obtain ⟨-, -, -, -, -, hvalue', -⟩ := exists_run_of_success hb heb
  obtain ⟨hround, hsquare⟩ := even_of_success ha hea
  obtain ⟨hround', hsquare'⟩ := even_of_success hb heb
  have hbare := withoutBlanks_joined a o b
  have hrounds : (joined a o b).withoutBlanks.count '(' =
      (joined a o b).withoutBlanks.count ')' := by
    rw [hbare, count_joined _ _ _ rfl, count_joined _ _ _ rfl, (even_grouped hround hsquare).1,
      (even_grouped hround' hsquare').1]
  have hsquares : (joined a o b).withoutBlanks.count '[' =
      (joined a o b).withoutBlanks.count ']' := by
    rw [hbare, count_joined _ _ _ rfl, count_joined _ _ _ rfl, (even_grouped hround hsquare).2,
      (even_grouped hround' hsquare').2]
  have hne : (joined a o b).withoutBlanks ≠ [] := hbare ▸ List.cons_ne_nil _ _
  have hrun := evaluateExpression_of_folded hne hlength (levels_roomier maxLength ha hea) hrounds
    hsquares hfold hv
  rw [hlevels, operators_literals hvalue hvalue' o levels hv] at hrun
  have hdice' : (visited (visited v)).dice = s₂ := hdice
  have hends := ends_combine setting maxLength o ea.value eb.value
    (literalText ea.value ++ o.symbol :: literalText eb.value) hdice' hv
  rw [finishCut_apply] at hrun
  dsimp only [cutBetween] at hrun
  generalize combine setting o ea.value eb.value
    (literalText ea.value ++ o.symbol :: literalText eb.value) { dice := s₂ } = r at hends ⊢
  generalize combine (setting.roomier maxLength) o ea.value eb.value
    (literalText ea.value ++ o.symbol :: literalText eb.value) (visited (visited v)) = r'
    at hends hrun
  -- the operator ends as it does on its own, behind what the groups have entered
  cases hends with
  | error htracks => exact hrun
  | ok htracks =>
    rename_i x t t'
    obtain ⟨zs, zs', hzs, hzs', hmatch, -⟩ := htracks.entries
    have hentries : Matching (ea.ledger.events ++ [.step (groupStep setting s₀ a ea.value)] ++
        eb.ledger.events ++ [.step (groupStep setting s₁ b eb.value)] ++ t.ledger.events)
        t'.ledger.events := by
      have hvisited : (visited (visited v)).ledger.events = v.ledger.events := rfl
      rw [hzs', hvisited, hevents, show t.ledger.events = zs from hzs]
      exact (((hxs.append (.refl _)).append hys).append (.refl _)).append hmatch
    exact exists_of_closing o htracks.alike.failed htracks.alike.dice hentries hrun

end Joined

/-! ## Groups on a stack -/

section Stack

variable {stack : Stack} {dice after : σ} {t : Text} {e : Evaluation}

/-- Where the contents of a group are granted all their levels, other limits that allow these
leave its step as it is. -/
theorem groupStep_withDepth {maxDepth : Int} (hle : maxDepth ≤ setting.limits.maxDepth)
    (h : evaluateExpression (setting.withDepth maxDepth) dice t = .ok (e, after))
    (he : e.failed = false) (value : Float) :
    groupStep (setting.withDepth maxDepth) dice t value = groupStep setting dice t value := by
  obtain ⟨levels, u, hlevels, hrun, hu, -⟩ := exists_run_of_success h he
  obtain ⟨hround, hsquare, w, v, hfold, hw, -⟩ := parts_of_clear hrun hu
  have hmax : maxDepth.toNat = levels + 1 := hlevels
  obtain ⟨extra, hextra⟩ : ∃ extra, setting.limits.maxDepth.toNat - 1 = levels + extra :=
    ⟨setting.limits.maxDepth.toNat - 1 - levels, by omega⟩
  have hvaried : Varied (setting.withDepth maxDepth) setting (fun _ => True) True :=
    ⟨rfl, .inl rfl, fun _ => ⟨rfl, rfl⟩⟩
  have hfollows := (Follows.congruence hvaried).foldGroups
    (@follows_descend σ .ample _ _ _ _ hvaried (fun _ => trivial) levels extra)
    (t.withoutBlanks.count ')') t.withoutBlanks
  obtain ⟨w', hfold', -⟩ := hfollows.run (.of_ample rfl rfl fun _ => rfl) hfold hw
  have htext : foldedText setting (levels + extra) t.withoutBlanks { dice } =
      foldedText (setting.withDepth maxDepth) levels t.withoutBlanks { dice } := by
    rw [foldedText, resolveGroups_of_even hround, if_pos hsquare, hfold']
  rw [groupStep, groupStep, hextra, htext]
  show valueStep (foldedText _ (maxDepth.toNat - 1) _ _) value = _
  rw [hmax]
  rfl

/-- A successful evaluation on a stack needs no more levels than it takes. -/
theorem success_withDepth (h : evaluateExpression setting dice t stack = .ok (e, after))
    (he : e.failed = false) {levels : Nat} (hlevels : levelsTaken setting dice t ≤ levels) :
    evaluateExpression (setting.withDepth levels) dice t = .ok (e, after) := by
  obtain ⟨⟨hample, -⟩, -⟩ := success_iff_nests.mp ⟨h, he⟩
  have hgranted := granted_of_success hample he
  exact (evaluateExpression_withDepth hgranted (by rwa [Int.toNat_natCast])).1.trans hample

theorem natCast_levelsTaken_le (h : evaluateExpression setting dice t stack = .ok (e, after))
    (he : e.failed = false) : (levelsTaken setting dice t : Int) ≤ setting.limits.maxDepth := by
  obtain ⟨levels, -, hlevels, -⟩ := exists_run_of_success h he
  have hle := levelsTaken_le setting dice t
  omega

/-- With no more levels than a successful evaluation on a stack takes, whatever succeeds does so
on the stack. -/
theorem success_of_withDepth {t' : Text} {e' : Evaluation} {after' : σ}
    (h : evaluateExpression setting dice t stack = .ok (e, after)) (he : e.failed = false)
    (h' : evaluateExpression (setting.withDepth (levelsTaken setting dice t)) dice t' =
      .ok (e', after')) (he' : e'.failed = false) :
    evaluateExpression setting dice t' stack = .ok (e', after') := by
  obtain ⟨-, hnests⟩ := success_iff_nests.mp ⟨h, he⟩
  obtain ⟨hsame, htaken⟩ :=
    evaluateExpression_of_granted (granted_of_success h' he') (natCast_levelsTaken_le h he)
  exact (success_iff_nests.mpr ⟨⟨hsame.trans h', he'⟩, hnests.mono htaken⟩).1

theorem combine_withDepth (maxDepth : Int) (o : Operator) (left right : Float) (fragment : Text) :
    (combine (setting.withDepth maxDepth) o left right fragment : Eval σ Float stack) =
      combine setting o left right fragment := by
  cases o with
  | dice => exact roll_withDepth setting maxDepth left right
  | _ => rfl

theorem problem_not_mem_of_clear (h : evaluateExpression setting dice t stack = .ok (e, after))
    (he : e.failed = false) (p : Problem) : .problem p ∉ e.ledger.events := by
  intro hp
  have hmem := Ledger.mem_problems.mpr hp
  rw [(flagged_evaluateExpression setting h).failed_eq_false_iff.mp he] at hmem
  cases hmem

/-- Behind its own entries an operator leaves at most the step and the judgement of its value. -/
theorem mem_of_mem_closing {o : Operator} {x y z : Float} {t : Progress σ} {p : Problem}
    (h : .problem p ∈ closing o x y z t) (hp : p ≠ .resultTooLarge) :
    .problem p ∈ t.ledger.events := by
  unfold closing at h
  split_ifs at h
  · exact h
  · simpa using h
  · simpa [hp] using h

/-- What is granted all its levels with one level more than some takes no more in a roomier
setting. -/
theorem evaluateExpression_roomier {maxLength : Int} {levels : Nat}
    (hgranted : Granted ((setting.withDepth levels).roomier maxLength) dice t)
    (hle : (levels : Int) ≤ setting.limits.maxDepth) :
    evaluateExpression (setting.roomier maxLength) dice t =
        evaluateExpression ((setting.withDepth levels).roomier maxLength) dice t ∧
      levelsTaken (setting.roomier maxLength) dice t ≤ levels + 1 :=
  @evaluateExpression_of_granted σ (setting.roomier maxLength) dice t (levels + 1) hgranted
    (Int.add_le_add_right hle 1)

end Stack

/-- **Groups are homomorphic.** If `a` is evaluated without a problem from a state of the dice
on and `b` from where `a` leaves them, then with one level more and a sufficient bound on the
length, and on a stack with room for one level more than the two of them take, `(a)` has the
value of `a`, and `(a)` and `(b)` with an operator between them end as the operator ends on both
values, from the state in which `b` leaves the dice. The ledger has the entries of `a`, one step
for its group, those of `b`, one step for its group, and what the operator adds; roll lines may
show fewer of their dice, as the first rolls use up the budget. -/
theorem evaluateExpression_groups {stack : Stack} {a : Text} {s₀ s₁ : σ} {ea : Evaluation}
    (maxLength : Int) {levels : Nat} (hstack : stack.Holds (levels + 1))
    (ha : evaluateExpression setting s₀ a stack = .ok (ea, s₁)) (hea : ea.failed = false)
    (hlevels : levelsTaken setting s₀ a ≤ levels) :
    (((grouped a).withoutBlanks.length : Int) ≤ maxLength →
      ∃ e, evaluateExpression (setting.roomier maxLength) s₀ (grouped a) stack = .ok (e, s₁) ∧
        e.failed = false ∧ e.value = ea.value ∧
        Matching (ea.ledger.events ++ [.step (groupStep setting s₀ a ea.value)])
          e.ledger.events) ∧
    ∀ {b : Text} {s₂ : σ} {eb : Evaluation} (o : Operator),
      evaluateExpression setting s₁ b stack = .ok (eb, s₂) → eb.failed = false →
      levelsTaken setting s₁ b ≤ levels →
      ((joined a o b).withoutBlanks.length : Int) ≤ maxLength →
      match combine setting o ea.value eb.value
          (literalText ea.value ++ o.symbol :: literalText eb.value)
          ({ dice := s₂ } : Progress σ) with
      | .error fault _ =>
        evaluateExpression (setting.roomier maxLength) s₀ (joined a o b) stack = .error fault
      | .ok x t =>
        ∃ e, evaluateExpression (setting.roomier maxLength) s₀ (joined a o b) stack =
            .ok (e, t.dice) ∧
          e.failed = (t.failed || !x.isFinite) ∧ (e.failed = false → e.value = x) ∧
          Matching (ea.ledger.events ++ [.step (groupStep setting s₀ a ea.value)] ++
            eb.ledger.events ++ [.step (groupStep setting s₁ b eb.value)] ++
            closing o ea.value eb.value x t) e.ledger.events := by
  have hdepth := natCast_levelsTaken_le ha hea
  constructor
  · intro hlength
    -- with no more levels than `a` takes its group is evaluated, so it takes one more at most
    have hnarrow := success_withDepth ha hea (le_refl _)
    obtain ⟨e, he, hclear, hvalue, hmatch⟩ :=
      evaluateExpression_grouped maxLength hnarrow hea hlength
    rw [groupStep_withDepth hdepth hnarrow hea] at hmatch
    obtain ⟨hsame, htaken⟩ := evaluateExpression_roomier (granted_of_success he hclear) hdepth
    have hheld := htaken.trans (Nat.succ_le_succ hlevels)
    exact ⟨e, (evaluateExpression_of_holds hstack hheld).trans (hsame.trans he), hclear, hvalue,
      hmatch⟩
  · intro b s₂ eb o hb heb hlevels' hlength
    have hboth : ((max (levelsTaken setting s₀ a) (levelsTaken setting s₁ b) : Nat) : Int) ≤
        setting.limits.maxDepth := by
      have hdepth' := natCast_levelsTaken_le hb heb
      omega
    have hheld : max (levelsTaken setting s₀ a) (levelsTaken setting s₁ b) + 1 ≤ levels + 1 :=
      Nat.succ_le_succ (max_le hlevels hlevels')
    have hnarrow := success_withDepth ha hea (le_max_left _ (levelsTaken setting s₁ b))
    have hnarrow' := success_withDepth hb heb (le_max_right (levelsTaken setting s₀ a) _)
    generalize max (levelsTaken setting s₀ a) (levelsTaken setting s₁ b) = both at *
    have hjoined := evaluateExpression_joined maxLength hnarrow hea hnarrow' heb o hlength
    rw [combine_withDepth, groupStep_withDepth hboth hnarrow hea,
      groupStep_withDepth hboth hnarrow' heb] at hjoined
    have hshallow : StaysShallow 0 (combine setting o ea.value eb.value
        (literalText ea.value ++ o.symbol :: literalText eb.value)) := .combine o _ _ _
    replace hshallow := hshallow { dice := s₂ }
    generalize combine setting o ea.value eb.value
      (literalText ea.value ++ o.symbol :: literalText eb.value)
        ({ dice := s₂ } : Progress σ) = r at hjoined hshallow ⊢
    have hstacked (hgranted : Granted ((setting.withDepth both).roomier maxLength) s₀
        (joined a o b)) :
        evaluateExpression (setting.roomier maxLength) s₀ (joined a o b) stack =
          evaluateExpression ((setting.withDepth both).roomier maxLength) s₀ (joined a o b) := by
      obtain ⟨hsame, htaken⟩ := evaluateExpression_roomier hgranted hboth
      exact (evaluateExpression_of_holds hstack (htaken.trans hheld)).trans hsame
    cases r with
    | error fault t => exact (hstacked (granted_of_fault hjoined)).trans hjoined
    | ok x t =>
      obtain ⟨e, he, hflag, hvalue, hmatch⟩ := hjoined
      have hgranted : Granted ((setting.withDepth both).roomier maxLength) s₀ (joined a o b) := by
        refine granted_of_problems he fun most hmem => ?_
        have hentry := hmatch.problem_mem (Ledger.mem_problems.mp hmem)
        simp only [List.mem_append, List.mem_singleton] at hentry
        rcases hentry with (((hfirst | hstep) | hsecond) | hstep) | hclosing
        · exact problem_not_mem_of_clear ha hea _ hfirst
        · cases hstep
        · exact problem_not_mem_of_clear hb heb _ hsecond
        · cases hstep
        · cases hshallow.granted most (mem_of_mem_closing hclosing nofun)
      exact ⟨e, (hstacked hgranted).trans he, hflag, hvalue, hmatch⟩

theorem evaluateExpression_groups_ones :
    (Stack.ofLevels 3).Holds 3 ∧ ∃ ea eb,
      evaluateExpression usual .low ['1', 'd', '6'] (.ofLevels 3) = .ok (ea, .low) ∧
      ea.failed = false ∧
      evaluateExpression usual .low ['2', '+', '1'] (.ofLevels 3) = .ok (eb, .low) ∧
      eb.failed = false ∧
      ∃ e, evaluateExpression (usual.roomier 99) .low (joined ['1', 'd', '6'] .times ['2', '+', '1'])
          (.ofLevels 3) = .ok (e, .low) ∧
        e.failed = false ∧ e.value = 3.0 := by
  have hstack := Stack.holds_ofLevels 3
  have ha : evaluateExpression usual .low ['1', 'd', '6'] (.ofLevels 3) =
      .ok ({ expression := ['1', 'd', '6']
             value := 1.0
             ledger :=
              { events := [.roll (.rolled 1 6 [1] false 1),
                  .step (.binary 1.0 'd' 6.0 1.0 ['1', 'd', '6'])]
                shown := 1 } }, .low) := by decide +kernel
  have hb : evaluateExpression usual .low ['2', '+', '1'] (.ofLevels 3) =
      .ok ({ expression := ['2', '+', '1']
             value := 3.0
             ledger := { events := [.step (.binary 2.0 '+' 1.0 3.0 ['2', '+', '1'])] } }, .low) := by
    decide +kernel
  refine ⟨hstack, _, _, ha, by decide +kernel, hb, by decide +kernel, ?_⟩
  obtain ⟨e, he, hclear, hvalue, -⟩ :=
    (evaluateExpression_groups 99 hstack ha (by decide +kernel) (by decide +kernel)).2 .times hb
      (by decide +kernel) (by decide +kernel) (by decide +kernel)
  have hf : e.failed = false := hclear.trans (by decide +kernel)
  exact ⟨e, he, hf, (hvalue hf).trans (by decide +kernel)⟩

/-- On a stack that has just the room for an expression there is none for the same one in
brackets, whatever else is allowed. -/
theorem evaluateExpression_groups_edge :
    let a := "max(max(abs1,1),1)".toList
    (evaluateExpression usual .low a (.ofLevels 4)).toOption.map (·.1.value) = some 1.0 ∧
      (evaluateExpression usual .low a (.ofLevels 4)).toOption.map (·.1.ledger.problems) =
        some [] ∧
      (evaluateExpression (usual.roomier 999) .low (grouped a) (.ofLevels 4)).toOption.map
          (·.1.ledger.problems) = some [.tooComplex] ∧
      (evaluateExpression (usual.roomier 999) .low (joined a .plus ['1']) (.ofLevels 4)).toOption.map
          (·.1.ledger.problems) = some [.tooComplex] := by
  decide +kernel

end Reckoner

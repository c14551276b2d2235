import Reckoner.Proofs.Derivation
import Reckoner.Proofs.Number.Finite

/-!
# Overflow on the way

Sums, differences, products and quotients are not checked, and neither are the arguments in
the list of a call. All else is checked, or is the value of a text too narrow for a sum or a
product. What is not finite therefore stays so until a check refuses it, unless a call takes it
in: an expression that is evaluated without a problem goes through finite numbers only, exactly
if its functions are called with finite numbers (`evaluateExpression_finite`).
-/

namespace Reckoner

open Eval

/-! ## Numbers of a run -/

/-- The numbers that a step notes. -/
def Step.numbers : Step → List Float
  | argumentList _ _ => []
  | groupValue _ value => [value]
  | binary left _ right result _ => [left, right, result]
  | factorial value result _ => [value, result]
  | call _ arguments value _ => arguments ++ [value]
  | constant _ value _ => [value]
  | stated _ _ => []

def Event.numbers : Event → List Float
  | step s => s.numbers
  | problem _ | roll _ => []

/-- What a step calls a function with. -/
def Step.arguments : Step → List Float
  | call _ arguments _ _ => arguments
  | _ => []

def Event.arguments : Event → List Float
  | step s => s.arguments
  | problem _ | roll _ => []

/-- The numbers that the evaluation of an expression goes through: those that its steps note,
and the values of the nested evaluations. -/
def intermediates {σ : Type} (setting : Setting σ) (dice : σ) (expression : Text)
    (ledger : Ledger) (stack : Stack := .ample) : List Float :=
  ledger.events.flatMap Event.numbers ++ keptValues setting dice expression stack

/-- All numbers are finite. -/
def AllFinite (xs : List Float) : Prop := ∀ x ∈ xs, x.isFinite = true

@[simp] theorem allFinite_nil : AllFinite [] := fun _ h => nomatch h

@[simp] theorem allFinite_cons {x : Float} {xs : List Float} :
    AllFinite (x :: xs) ↔ x.isFinite = true ∧ AllFinite xs := List.forall_mem_cons

@[simp] theorem allFinite_append {xs ys : List Float} :
    AllFinite (xs ++ ys) ↔ AllFinite xs ∧ AllFinite ys := List.forall_mem_append

/-! ## Texts that cannot overflow -/

/-- At the start or behind an operator, where a sign is no operator, no tier splits the text. -/
def UnsplitBehind (tiers : List Tier) (t : Text) : Prop :=
  ∀ tier ∈ tiers, Unsplit tier.symbols tier.signed 0 (some '+') t

/-- Neither a sum nor a product is to be taken. -/
abbrev Narrow (t : Text) : Prop := UnsplitBehind [.additive, .multiplicative] t

theorem isSplit_behind {operators : Text} {signed : Bool} {previous : Option Char} {c : Char}
    (h : isSplit operators signed previous c = false) :
    isSplit operators signed (some '+') c = false := by
  have hlead : (some '+').any isSignLead = true := by decide
  unfold isSplit at h ⊢
  rw [hlead]
  cases signed <;> simp_all

theorem Unsplit.behind {operators : Text} {signed : Bool} {depth : Int} {previous : Option Char}
    {t : Text} (h : Unsplit operators signed depth previous t) :
    Unsplit operators signed depth (some '+') t := by
  cases t with
  | nil => exact unsplit_nil _ _
  | cons c t =>
    obtain ⟨hc, ht⟩ := h.of_cons
    exact .cons (fun hdepth => isSplit_behind (hc hdepth)) ht

theorem Eval.UnsplitBy.behind {tiers : List Tier} {t : Text} (h : UnsplitBy tiers t) :
    UnsplitBehind tiers t :=
  fun tier htier => (unsplit_of_eq_nil (h tier htier)).behind

/-- What stands before the last split point of a tier, and what stands behind it. -/
theorem unsplitBehind_parts {looser : List Tier} {tier : Tier} {l r : Text} {c : Char}
    (hlooser : UnsplitBy looser (l ++ c :: r))
    (hlast : splitPoints tier.symbols tier.signed (l ++ c :: r) =
      splitPoints tier.symbols tier.signed l ++ [l.length]) :
    UnsplitBehind looser l ∧ UnsplitBehind (looser ++ [tier]) r := by
  obtain ⟨hdepth, hc, hr⟩ := of_splitPoints_snoc hlast
  have hbracket : isBracket c = false := by
    cases hb : isBracket c with
    | false => rfl
    | true => exact absurd (isSplit_of_isBracket hb ▸ hc) Bool.false_ne_true
  refine ⟨hlooser.of_append.behind, fun tier' htier' => ?_⟩
  rcases List.mem_append.mp htier' with htier' | htier'
  · have hrest := ((unsplit_of_eq_nil (hlooser tier' htier')).of_append.2).of_cons.2
    rw [hdepth, depthAfter_of_not_isBracket hbracket] at hrest
    exact hrest.behind
  · rw [List.mem_singleton.mp htier']
    exact hr.behind

/-- A text that a tier does not split behind an operator is split by it at its start only,
and only if the tier is signed. -/
theorem of_unsplitBehind {tier : Tier} {l r : Text} {c : Char}
    (h : Unsplit tier.symbols tier.signed 0 (some '+') (l ++ c :: r))
    (hlast : splitPoints tier.symbols tier.signed (l ++ c :: r) =
      splitPoints tier.symbols tier.signed l ++ [l.length]) :
    l = [] ∧ tier.signed = true := by
  obtain ⟨hdepth, hc, -⟩ := of_splitPoints_snoc hlast
  have hnone := (h.of_append.2).of_cons.1 hdepth
  cases l with
  | cons a l =>
    rw [lastOf_cons] at hnone hc
    rw [hnone] at hc
    cases hc
  | nil =>
    refine ⟨rfl, ?_⟩
    rw [lastOf_nil] at hnone hc
    by_contra hsigned
    rw [Bool.not_eq_true] at hsigned
    unfold isSplit at hnone hc
    rw [hsigned] at hnone hc
    simp_all

/-! ## Operators -/

/-- What the looser tiers of an operator are. -/
theorem looser_cases {looser tighter : List Tier} {tier : Tier}
    (h : Tier.all = looser ++ tier :: tighter) :
    tier = .additive ∨ (tier = .multiplicative ∧ looser = [.additive]) ∨
      ((tier = .powers ∨ tier = .diceAndModulo) ∧ [.additive, .multiplicative] ⊆ looser) := by
  rcases looser with - | ⟨a, - | ⟨b, - | ⟨c, - | ⟨d, looser⟩⟩⟩⟩
  all_goals simp [Tier.all] at h
  · exact .inl h.1.symm
  · exact .inr (.inl ⟨h.2.1.symm, by rw [h.1]⟩)
  · exact .inr (.inr ⟨.inl h.2.2.1.symm, by simp [h.1, h.2.1]⟩)
  · exact .inr (.inr ⟨.inr h.2.2.2.1.symm, by simp [h.1, h.2.1]⟩)

/-- Powers, remainders and rolls of finite numbers are finite. -/
theorem finite_combined {o : Operator} (ho : o ∈ [.power, .dice, .modulo]) {x y z : Float}
    {rolls : List Event} (h : Combined o x y z rolls) (hx : x.isFinite = true)
    (hy : y.isFinite = true) : z.isFinite = true := by
  cases h with
  | power h => exact isFinite_of_power hx hy h
  | modulo => exact isFinite_remainder hx hy
  | dice _ _ _ _ h => exact isFinite_of_toDouble? h
  | plus | minus | times | divide => simp at ho

section Split

variable {looser tighter : List Tier} {tier : Tier} {l r : Text} {o : Operator} {x y z : Float}
  {rolls : List Event} (htiers : Tier.all = looser ++ tier :: tighter)
  (hlooser : UnsplitBy looser (l ++ o.symbol :: r)) (ho : o ∈ tier.operators)
  (hlast : splitPoints tier.symbols tier.signed (l ++ o.symbol :: r) =
    splitPoints tier.symbols tier.signed l ++ [l.length])
  (hx : Narrow l → x.isFinite = true) (hy : Narrow r → y.isFinite = true)
  (hz : Combined o x y z rolls)

include htiers hlooser ho hlast hx hy hz

/-- If the result of an operator is finite, so are its operands. -/
theorem finite_of_finite_split (hfinite : z.isFinite = true) :
    x.isFinite = true ∧ y.isFinite = true := by
  obtain ⟨hl, hr⟩ := unsplitBehind_parts hlooser hlast
  -- sums and products go back to their operands; the operands of tighter tiers are narrow
  rcases looser_cases htiers with rfl | ⟨rfl, rfl⟩ | ⟨-, hloose⟩
  · cases hz with
    | plus => exact finite_of_finite_add hfinite
    | minus => exact finite_of_finite_sub hfinite
    | times | divide | power | modulo | dice => simp [Tier.additive] at ho
  · cases hz with
    | times => exact finite_of_finite_mul hfinite
    | divide =>
      -- an infinite divisor would leave a finite quotient, but the divisor is narrow
      have hdivisor := hy hr
      exact ⟨finite_of_finite_div hfinite hdivisor, hdivisor⟩
    | plus | minus | power | modulo | dice => simp [Tier.multiplicative] at ho
  · exact ⟨hx fun tier' h => hl tier' (hloose h),
      hy fun tier' h => hr tier' (List.mem_append_left _ (hloose h))⟩

/-- A narrow text with an operator is a power, a remainder, a roll or a sign with an operand. -/
theorem finite_of_narrow_split (hzero : l = [] → x = tier.neutral)
    (h : Narrow (l ++ o.symbol :: r)) : z.isFinite = true := by
  obtain ⟨hl, hr⟩ := unsplitBehind_parts hlooser hlast
  rcases looser_cases htiers with rfl | ⟨rfl, rfl⟩ | ⟨htier, hloose⟩
  -- only a sign at the start can split the text, and nothing stands in front of it
  · obtain ⟨rfl, -⟩ := of_unsplitBehind (h .additive (by simp)) hlast
    have hright : y.isFinite = true := by
      refine hy fun tier htier => ?_
      have hrest := (h tier htier).of_cons.2
      rw [depthAfter_of_not_isBracket (isBracket_symbol o)] at hrest
      exact hrest.behind
    rw [hzero rfl] at hz
    cases hz with
    | plus => exact isFinite_zero_add hright
    | minus => exact isFinite_zero_sub hright
    | times | divide | power | modulo | dice => simp [Tier.additive] at ho
  · exact absurd (of_unsplitBehind (h .multiplicative (by simp)) hlast).2 (by decide)
  · refine finite_combined ?_ hz (hx fun tier' h => hl tier' (hloose h))
      (hy fun tier' h => hr tier' (List.mem_append_left _ (hloose h)))
    rcases htier with rfl | rfl <;> simp [Tier.powers, Tier.diceAndModulo] at ho ⊢ <;> tauto

end Split

/-! ## Derivations -/

/-- The numbers among entries and kept values are finite. -/
def NumbersFinite (es : List Event) (ns : List Float) : Prop :=
  AllFinite (es.flatMap Event.numbers) ∧ AllFinite ns

/-- The functions among entries were called with finite numbers. -/
def CallsFinite (es : List Event) : Prop := AllFinite (es.flatMap Event.arguments)

theorem numbersFinite_nil : NumbersFinite [] [] := ⟨allFinite_nil, allFinite_nil⟩

theorem NumbersFinite.append {es es' : List Event} {ns ns' : List Float} (h : NumbersFinite es ns)
    (h' : NumbersFinite es' ns') : NumbersFinite (es ++ es') (ns ++ ns') := by
  unfold NumbersFinite at *
  simp [h, h']

theorem NumbersFinite.step {es : List Event} {ns : List Float} (h : NumbersFinite es ns)
    (step : Step) (hstep : AllFinite step.numbers) : NumbersFinite (es ++ [.step step]) ns := by
  have hone : NumbersFinite [.step step] [] := by simpa [NumbersFinite, Event.numbers] using hstep
  simpa using h.append hone

/-- Rolls are entered in whole numbers. -/
theorem numbersFinite_combined {o : Operator} {x y z : Float} {rolls : List Event}
    (h : Combined o x y z rolls) : NumbersFinite rolls [] := by
  cases h <;> simp [NumbersFinite, Event.numbers]

@[simp] theorem callsFinite_append {es es' : List Event} :
    CallsFinite (es ++ es') ↔ CallsFinite es ∧ CallsFinite es' := by
  simp [CallsFinite]

@[simp] theorem callsFinite_step {step : Step} {es : List Event} :
    CallsFinite (.step step :: es) ↔ AllFinite step.arguments ∧ CallsFinite es := by
  simp [CallsFinite, Event.arguments]

/-- Where a text comes to a finite value whatever it is, or because it is narrow. -/
def Sure : Entry → Text → Prop
  | .factorial, _ | .application, _ => True
  | .operand, t => Narrow t
  | .whole, _ => False

/-- How far the numbers on the way to a value are finite. -/
def Judgement.FiniteBy : Judgement → List Event → List Float → Prop
  | .nested entry t x, es, ns | .direct entry t x, es, ns =>
    (Sure entry t → x.isFinite = true) ∧ (x.isFinite = true → NumbersFinite es ns)
  | .side tier t x, es, ns =>
    (tier ∈ Tier.all → Narrow t → x.isFinite = true) ∧ (t = [] → x = tier.neutral) ∧
      (x.isFinite = true → NumbersFinite es ns)
  | .arguments _ xs, es, ns => AllFinite xs → NumbersFinite es ns
  | .folds _ _, es, ns => NumbersFinite es ns

/-- A call that has a value has a finite one, before the factor and with it. -/
theorem finiteBy_call {t : Text} {function : String} {arguments : List Float} {y z : Float}
    {es : List Event} {ns : List Float} (hz : Called y z) (harguments : AllFinite arguments)
    (h : NumbersFinite es ns) :
    Judgement.FiniteBy (.direct .application t z)
      (es ++ [.step (.call function arguments y t)]) ns := by
  obtain ⟨hfinite, factor, rfl⟩ := hz
  have hy := (finite_of_finite_mul hfinite).2
  exact ⟨fun _ => hfinite, fun _ => h.step _ (by simp [Step.numbers, harguments, hy])⟩

theorem isFinite_neutral : ∀ tier ∈ Tier.all, tier.neutral.isFinite = true := by
  simp only [Tier.all, List.forall_mem_cons]
  decide +kernel

/-- **Only lists take in what is not finite.** -/
theorem Derives.finiteBy {judgement : Judgement} {es : List Event} {ns : List Float}
    (h : Derives judgement es ns) (hcalls : CallsFinite es) : judgement.FiniteBy es ns := by
  induction h with
  | @nested entry t x es ns _ ih =>
    obtain ⟨hsure, hnumbers⟩ := ih hcalls
    refine ⟨hsure, fun hx => ?_⟩
    have hvalue : NumbersFinite [] [x] := by simp [NumbersFinite, hx]
    simpa using (hnumbers hx).append hvalue
  | flat _ => exact numbersFinite_nil
  | @listed before inner after flat es ns _ _ ih =>
    have hlist : NumbersFinite [.step (listStep inner)] [] := by
      simp [NumbersFinite, Event.numbers, listStep, Step.numbers]
    exact hlist.append (ih (callsFinite_step.mp hcalls).2)
  | @valued before inner after flat x es es' ns ns' _ _ hfinite _ ihx ih =>
    rw [callsFinite_append, callsFinite_step] at hcalls
    have hx := ((ihx hcalls.1).2 hfinite).step (valueStep inner x)
      (by simpa [valueStep, Step.numbers] using hfinite)
    have hall := hx.append (ih hcalls.2.2)
    rw [List.append_assoc, List.singleton_append] at hall
    exact hall
  | whole _ _ ihflat ihx =>
    rw [callsFinite_append] at hcalls
    obtain ⟨-, hnumbers⟩ := ihx hcalls.2
    exact ⟨nofun, fun hx => (ihflat hcalls.1).append (hnumbers hx)⟩
  | @split _ _ tier l r _ x y z _ _ _ _ _ htiers hlooser hc hlast _ _ hz ihx ihy =>
    rw [callsFinite_append, callsFinite_append] at hcalls
    have htier : tier ∈ Tier.all := by simp [htiers]
    -- a narrow operand has a finite value, any other one is finite if the result is
    obtain ⟨hx, hzero, hleft⟩ := ihx hcalls.1.1
    obtain ⟨hy, -, hright⟩ := ihy hcalls.1.2
    replace hx := hx htier
    replace hy := hy htier
    obtain ⟨o, ho, rfl⟩ := List.mem_map.mp hc
    rw [Operator.ofSymbol_symbol] at hz ⊢
    refine ⟨finite_of_narrow_split htiers hlooser ho hlast hx hy hz hzero, fun hfinite => ?_⟩
    obtain ⟨hxfinite, hyfinite⟩ := finite_of_finite_split htiers hlooser ho hlast hx hy hz hfinite
    have hresult := (numbersFinite_combined hz).step
      (.binary x o.symbol y z (l ++ o.symbol :: r))
      (by simp [Step.numbers, hxfinite, hyfinite, hfinite])
    simpa using ((hleft hxfinite).append (hright hyfinite)).append hresult
  | unsplit _ _ ih => exact ⟨fun _ => (ih hcalls).1 trivial, (ih hcalls).2⟩
  | missing tier =>
    exact ⟨fun htier _ => isFinite_neutral tier htier, fun _ => rfl, fun _ => numbersFinite_nil⟩
  | operand ht _ ih => exact ⟨fun _ => (ih hcalls).1, fun h => absurd h ht, (ih hcalls).2⟩
  | chain ht _ ih => exact ⟨fun _ => (ih hcalls).1, fun h => absurd h ht, (ih hcalls).2⟩
  | applied _ ih => exact ih hcalls
  | @factorial t x z n es ns _ hz ih =>
    obtain ⟨hx, hnumbers⟩ := ih (callsFinite_append.mp hcalls).1
    have hfinite := isFinite_of_factorialOf? hz
    exact ⟨fun _ => hfinite, fun _ => (hnumbers (hx trivial)).step _
      (by simp [Step.numbers, hx trivial, hfinite])⟩
  | unary _ _ hfinite _ hz ih =>
    have hnumbers := (ih (callsFinite_append.mp hcalls).1).2 hfinite
    exact finiteBy_call hz (by simp [hfinite]) hnumbers
  | single _ _ _ hz ih =>
    -- a list is not checked: this is where finite calls are needed
    rw [callsFinite_append, callsFinite_step] at hcalls
    have hargument := hcalls.2.1
    exact finiteBy_call hz hargument ((ih hcalls.1).2 (allFinite_cons.mp hargument).1)
  | list _ _ _ _ hz ih =>
    rw [callsFinite_append, callsFinite_step] at hcalls
    exact finiteBy_call hz hcalls.2.1 (ih hcalls.1 hcalls.2.1)
  | constant _ hz =>
    refine ⟨fun _ => hz, fun _ => ?_⟩
    simp [NumbersFinite, Event.numbers, Step.numbers, (finite_of_finite_mul hz).2]
  | multiple _ _ hz ih =>
    obtain ⟨hx, hk⟩ := finite_of_finite_mul hz
    have hnumbers := (ih (callsFinite_append.mp hcalls).1).2 hx
    exact ⟨fun _ => hz, fun _ => hnumbers.step _ (by simp [Step.numbers, hk])⟩
  | literal h =>
    obtain ⟨n, -, hx⟩ := h
    exact ⟨fun _ => Numeral.isFinite_of_toDouble? hx, fun _ => numbersFinite_nil⟩
  | nil => exact fun _ => numbersFinite_nil
  | cons _ _ ihx ihxs =>
    rw [callsFinite_append] at hcalls
    intro hfinite
    obtain ⟨hx, hxs⟩ := allFinite_cons.mp hfinite
    exact ((ihx hcalls.1).2 hx).append (ihxs hcalls.2 hxs)

/-! ## Whole expressions -/

theorem arguments_subset_numbers (e : Event) : e.arguments ⊆ e.numbers := by
  cases e with
  | step s =>
    cases s with
    | call => exact List.subset_append_left _ _
    | argumentList | groupValue | binary | factorial | constant | stated =>
      exact List.nil_subset _
  | problem | roll => exact List.nil_subset _

variable {σ : Type}

/-- **Overflow is absorbed by calls only.** An expression that is evaluated without a problem
goes through finite numbers only, exactly if its functions are called with finite numbers. -/
theorem evaluateExpression_finite {stack : Stack} {setting : Setting σ} {dice after : σ}
    {expression : Text} {e : Evaluation}
    (h : evaluateExpression setting dice expression stack = .ok (e, after))
    (he : e.failed = false) :
    AllFinite (intermediates setting dice expression e.ledger stack) ↔
      CallsFinite e.ledger.events := by
  obtain ⟨_, _, -, -, -, hvalue, -, -⟩ := exists_run_of_success h he
  constructor
  · intro hall x hx
    obtain ⟨event, hevent, hx⟩ := List.mem_flatMap.mp hx
    refine hall x (List.mem_append_left _ ?_)
    exact List.mem_flatMap.mpr ⟨event, hevent, arguments_subset_numbers event hx⟩
  · intro hcalls
    have hnumbers := ((derives_of_success h he).finiteBy hcalls).2 hvalue
    exact allFinite_append.mpr hnumbers

/-- The list of a call is evaluated piece by piece. -/
theorem evaluateExpression_finite_minimum :
    ∃ e, evaluateExpression usual .low ['m', 'i', 'n', '(', '1', ',', '2', '*', '3', ')'] =
        .ok (e, .low) ∧ e.failed = false ∧
      AllFinite (intermediates usual .low ['m', 'i', 'n', '(', '1', ',', '2', '*', '3', ')']
        e.ledger) := by
  have h : evaluateExpression usual .low ['m', 'i', 'n', '(', '1', ',', '2', '*', '3', ')'] =
      .ok ({ expression := ['m', 'i', 'n', '(', '1', ',', '2', '*', '3', ')']
             value := 1.0
             ledger :=
              { events := [.step (.argumentList ['(', '1', ',', '2', '*', '3', ')']
                    ['[', '1', ';', '2', '*', '3', ']']),
                  .step (.binary 2.0 '*' 3.0 6.0 ['2', '*', '3']),
                  .step (.call "min" [1.0, 6.0] 1.0
                    ['m', 'i', 'n', '[', '1', ';', '2', '*', '3', ']'])] } }, .low) := by
    decide +kernel
  refine ⟨_, h, by decide +kernel, (evaluateExpression_finite h (by decide +kernel)).mpr ?_⟩
  unfold CallsFinite AllFinite
  decide +kernel

/-- The infinite product is an argument like any other, and the lesser one is the answer. -/
theorem evaluateExpression_absorbed :
    ∃ e, evaluateExpression usual .low
        ['m', 'i', 'n', '(', '1', ',', '1', 'E', '3', '0', '8', '*', '1', '0', ')'] =
        .ok (e, .low) ∧ e.failed = false ∧ e.value = 1.0 ∧
      ¬AllFinite (intermediates usual .low
        ['m', 'i', 'n', '(', '1', ',', '1', 'E', '3', '0', '8', '*', '1', '0', ')'] e.ledger) := by
  have h : evaluateExpression usual .low
      ['m', 'i', 'n', '(', '1', ',', '1', 'E', '3', '0', '8', '*', '1', '0', ')'] =
      .ok ({ expression :=
               ['m', 'i', 'n', '(', '1', ',', '1', 'E', '3', '0', '8', '*', '1', '0', ')']
             value := 1.0
             ledger :=
              { events := [.step (.argumentList
                    ['(', '1', ',', '1', 'E', '3', '0', '8', '*', '1', '0', ')']
                    ['[', '1', ';', '1', 'E', '3', '0', '8', '*', '1', '0', ']']),
                  .step (.binary 1E308 '*' 10.0 (1.0 / 0.0)
                    ['1', 'E', '3', '0', '8', '*', '1', '0']),
                  .step (.call "min" [1.0, 1.0 / 0.0] 1.0
                    ['m', 'i', 'n', '[', '1', ';', '1', 'E', '3', '0', '8', '*', '1', '0',
                      ']'])] } }, .low) := by decide +kernel
  refine ⟨_, h, by decide +kernel, rfl, fun hall => ?_⟩
  have hinfinite : (1.0 / 0.0 : Float).isFinite = true := hall _ (by simp [intermediates,
    Event.numbers, Step.numbers])
  revert hinfinite
  decide +kernel

end Reckoner

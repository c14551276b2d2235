import Reckoner.Proofs.Reentry

/-!
# What an entry quotes

An entry words what happened with parts of the expression, names from the tables, and numbers.
Every check quotes the text that it looks at or something that is written with it, so an entry
shows no blanks but those of this text and of its own wording (`Concerns`).
-/

namespace Reckoner

/-! ## Quotations -/

/-- The texts that a problem quotes. What is stated from outside may have any wording. -/
def Problem.quotes? : Problem → Option (List Text)
  | .nothingToEvaluate | .tooLong .. | .tooDeep .. | .tooComplex | .resultTooLarge
  | .factorialOf .. | .factorialTooLarge .. | .tooManyDice .. | .noFaces .. => some []
  | .unbalancedParentheses t | .unbalancedBrackets t | .emptyGroup t | .malformedGroup t
  | .factorialOfNothing t | .malformedCall t | .notANumeral t | .tooLarge t | .divisionByZero t
  | .moduloByZero t | .noRemainder t | .zeroToZero t | .noRealValue t => some [t]
  | .argumentList name | .wrongArity name .. | .outsideDomain name _ | .listOutsideDomain name _
  | .argumentTooLarge name | .notRepresentable name _ => some [name.toList]
  | .missingArgument name t => some [name.toList, t]
  | .stated .. => none

/-- The texts that a step quotes, its fragment among them. -/
def Step.quotes? : Step → Option (List Text)
  | .argumentList group replacement => some [group, replacement]
  | .groupValue t _ | .factorial _ _ t => some [t]
  | .binary _ symbol _ _ t => some [[symbol], t]
  | .call name _ _ t | .constant name _ t => some [name.toList, t]
  | .stated .. => none

/-- The texts that an entry quotes; a roll only tells numbers. -/
def Event.quotes? : Event → Option (List Text)
  | .problem p => p.quotes?
  | .step s => s.quotes?
  | .roll (.rolled ..) => some []
  | .roll (.stated _) => none

/-- The blanks of a text are blanks of another one. -/
def BlanksFrom (t u : Text) : Prop := ∀ c ∈ u, isBlank c = true → c ∈ t

namespace BlanksFrom

variable {t u v : Text}

theorem of_subset (h : u ⊆ t) : BlanksFrom t u := fun _ hc _ => h hc

theorem refl (t : Text) : BlanksFrom t t := of_subset (List.Subset.refl t)

theorem of_solid (h : ∀ c ∈ u, isBlank c = false) : BlanksFrom t u := fun c hc hblank =>
  absurd ((h c hc).symm.trans hblank) Bool.false_ne_true

theorem trans (h1 : BlanksFrom t u) (h2 : BlanksFrom u v) : BlanksFrom t v :=
  fun c hc hblank => h1 c (h2 c hc hblank) hblank

theorem append (hu : BlanksFrom t u) (hv : BlanksFrom t v) : BlanksFrom t (u ++ v) :=
  fun c hc hblank => (List.mem_append.mp hc).elim (hu c · hblank) (hv c · hblank)

/-- A group with its brackets. -/
theorem group (h : BlanksFrom t u) : BlanksFrom t ('(' :: u ++ [')']) :=
  append (append (of_solid (u := ['(']) (by decide)) h) (of_solid (by decide))

/-- A list of arguments, written with the other brackets and separators. -/
theorem bracketed (h : BlanksFrom t u) :
    BlanksFrom t (Eval.bracketed (splitTopLevel (· == ',') u)) := by
  have hjoin : BlanksFrom t (Text.join [';'] (splitTopLevel (· == ',') u)) := by
    intro c hc hblank
    rcases mem_of_mem_join hc with hc | ⟨part, hpart, hc⟩
    · rw [List.mem_singleton.mp hc] at hblank
      exact absurd hblank (by decide)
    · exact h c (mem_of_mem_splitTopLevelFrom hpart hc) hblank
  exact append (append (of_solid (u := ['[']) (by decide)) hjoin) (of_solid (by decide))

end BlanksFrom

/-- An entry about a text: it is none that is stated from outside, and no blanks are in what it
quotes but those of the text. -/
def Concerns (t : Text) (e : Event) : Prop :=
  ∃ quoted, e.quotes? = some quoted ∧ ∀ u ∈ quoted, BlanksFrom t u

/-! ## Names have no blanks -/

theorem isBlank_listName : ∀ f ∈ listFunctions, ∀ c ∈ f.name.toList, isBlank c = false := by
  simp only [listFunctions, List.forall_mem_cons]
  decide

theorem isBlank_unaryName : ∀ f ∈ unaryFunctions, ∀ c ∈ f.name.toList, isBlank c = false := by
  simp only [unaryFunctions, List.forall_mem_cons]
  decide

theorem isBlank_constantName : ∀ k ∈ constants, ∀ c ∈ k.name.toList, isBlank c = false := by
  simp only [constants, List.forall_mem_cons]
  decide

theorem isBlank_symbol (o : Operator) : isBlank o.symbol = false := by cases o <;> rfl

/-! ## Parts that are quoted -/

/-- What a cut quotes starts the text. -/
theorem isPrefix_of_mem_cuts {t : Text} {points : List Nat} {cut : Cut} (h : cut ∈ cuts t points) :
    cut.fragment <+: t := by
  induction points with
  | nil => cases h
  | cons point points ih =>
    rcases List.mem_cons.mp h with rfl | h
    · exact List.take_prefix _ t
    · exact ih h

/-- A multiplier is a part of the text that it is taken from. -/
theorem takeMultiplier_subset (t : Text) : (takeMultiplier t).1 ⊆ t := by
  have hprefix : (takeMultiplier t).1 <+: t := ⟨_, multiplier_append t⟩
  exact hprefix.subset

/-! ## Entries that may be made -/

/-- Whatever concerns a text may be entered. -/
def Permits (allowed : Event → Prop) (t : Text) : Prop := ∀ e, Concerns t e → allowed e

namespace Permits

variable {allowed : Event → Prop} {t : Text}

/-- Where every entry is allowed, nothing is left to ask. -/
theorem all (t : Text) : Permits (fun _ => True) t := fun _ _ => trivial

theorem of_blanksFrom {u : Text} (ha : Permits allowed t) (hu : BlanksFrom t u) :
    Permits allowed u := by
  rintro e ⟨quoted, he, hquoted⟩
  exact ha e ⟨quoted, he, fun v hv => hu.trans (hquoted v hv)⟩

variable (ha : Permits allowed t) {e : Event} {name : String}
  (hname : ∀ c ∈ name.toList, isBlank c = false)
include ha

/-- An entry that quotes nothing. -/
theorem bare (he : e.quotes? = some []) : allowed e := ha e ⟨[], he, by simp⟩

/-- An entry that quotes one text. -/
theorem quoting {u : Text} (hu : BlanksFrom t u) (he : e.quotes? = some [u]) : allowed e :=
  ha e ⟨[u], he, by simpa using hu⟩

/-- An entry that quotes the text itself. -/
theorem whole (he : e.quotes? = some [t]) : allowed e := ha.quoting (.refl t) he

include hname

/-- An entry that quotes a name. -/
theorem named (he : e.quotes? = some [name.toList]) : allowed e := ha.quoting (.of_solid hname) he

/-- An entry that quotes a name and the text. -/
theorem called (he : e.quotes? = some [name.toList, t]) : allowed e :=
  ha e ⟨_, he, by simpa using ⟨.of_solid hname, .refl t⟩⟩

end Permits

/-- An entry that says that brackets do not match. Only what looks for groups makes it. -/
def Event.isUneven : Event → Bool
  | .problem (.unbalancedParentheses _) | .problem (.unbalancedBrackets _) => true
  | _ => false

/-- Whatever concerns a text may be entered, except that its brackets do not match. -/
abbrev PermitsEven (allowed : Event → Prop) : Text → Prop :=
  Permits fun e => e.isUneven = false → allowed e

theorem PermitsEven.all (t : Text) : PermitsEven (fun _ => True) t := fun _ _ _ => trivial

theorem Permits.even {allowed : Event → Prop} {t : Text} (ha : Permits allowed t) :
    PermitsEven allowed t := fun e he _ => ha e he

end Reckoner

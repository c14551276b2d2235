import Reckoner.Proofs.DiceCount
import Reckoner.Proofs.Mention
import Reckoner.Proofs.Number.Characters

/-!
# Wordings on one line

Every problem, step and roll is told on one line, however it is worded: numbers and names have no
line breaks, and what is quoted from a text without blanks has none either, since all line breaks
are blanks (`unbroken_wordings`).
-/

namespace Reckoner

/-! ## Texts on one line -/

/-- A text without line breaks. -/
def Unbroken (t : Text) : Prop := ∀ c ∈ t, isLineBreak c = false

instance (t : Text) : Decidable (Unbroken t) := inferInstanceAs (Decidable (∀ c ∈ t, _))

theorem unbroken_append {s t : Text} : Unbroken (s ++ t) ↔ Unbroken s ∧ Unbroken t :=
  List.forall_mem_append

theorem isBlank_of_isLineBreak {c : Char} (h : isLineBreak c = true) : isBlank c = true := by
  simp only [isLineBreak, isBlank, Bool.or_eq_true, Bool.and_eq_true, decide_eq_true_eq,
    beq_iff_eq] at h ⊢
  omega

theorem unbroken_of_solid {t : Text} (h : ∀ c ∈ t, isBlank c = false) : Unbroken t := by
  intro c hc
  by_contra hbreak
  exact Bool.false_ne_true ((h c hc).symm.trans (isBlank_of_isLineBreak (by simpa using hbreak)))

theorem unbroken_of_isFigures {t : Text} (h : IsFigures t) : Unbroken t := by
  have hmarks : ∀ c ∈ numberMarks, isLineBreak c = false := by decide
  exact fun c hc => (h c hc).elim isLineBreak_of_isDigit (hmarks c)

theorem unbroken_join {separator : Text} {parts : List Text} (hs : Unbroken separator)
    (h : ∀ p ∈ parts, Unbroken p) : Unbroken (Text.join separator parts) := by
  intro c hc
  rcases mem_of_mem_join hc with hc | ⟨p, hp, hc⟩
  · exact hs c hc
  · exact h p hp c hc

/-- A string without line breaks. -/
def Oneline (s : String) : Prop := Unbroken s.toList

instance (s : String) : Decidable (Oneline s) := inferInstanceAs (Decidable (Unbroken s.toList))

section Interpolation

variable {s t : String} {u : Text}

theorem oneline_append : Oneline (s ++ t) ↔ Oneline s ∧ Oneline t := by
  rw [Oneline, String.toList_append, unbroken_append]
  rfl

theorem oneline_toString : Oneline (toString s) ↔ Oneline s := Iff.rfl

theorem oneline_text : Oneline u.toString ↔ Unbroken u := by
  rw [Oneline, Text.toString, String.toList_ofList]

theorem oneline_quoted : Oneline u.quoted ↔ Unbroken u := by
  have hmark : Oneline "'" := by decide
  unfold Text.quoted
  simp only [oneline_append, oneline_toString, oneline_text, hmark, true_and, and_true]

theorem oneline_nat (n : Nat) : Oneline (toString n) :=
  oneline_text.mpr (unbroken_of_isFigures (isFigures_natText n))

theorem oneline_int (n : Int) : Oneline (toString n) := by
  cases n with
  | ofNat n => exact oneline_nat n
  | negSucc n => exact oneline_append.mpr ⟨by decide, oneline_nat n.succ⟩

theorem oneline_char {c : Char} : Oneline (toString c) ↔ Unbroken [c] := by
  show Unbroken (String.singleton c).toList ↔ _
  rw [String.toList_singleton]

end Interpolation

/-! ## Numbers -/

theorem unbroken_displayText (x : Float) : Unbroken (displayText x) :=
  unbroken_of_isFigures (isFigures_displayText x)

theorem unbroken_shortestText (x : Float) : Unbroken (shortestText x) :=
  unbroken_of_isFigures (isFigures_shortestText x)

theorem unbroken_generalText (x : Float) : Unbroken (generalText x) :=
  unbroken_of_isFigures (isFigures_generalText x)

theorem unbroken_listed (xs : List Float) : Unbroken (listed xs) := by
  refine unbroken_join (by decide) fun p hp => ?_
  obtain ⟨x, -, rfl⟩ := List.mem_map.mp hp
  exact unbroken_displayText x

/-! ## Problems, steps and rolls -/

theorem oneline_problem {p : Problem} {quoted : List Text} (hp : p.quotes? = some quoted)
    (h : ∀ u ∈ quoted, Unbroken u) : Oneline p.message := by
  unfold Problem.message
  cases p with
  | stated => cases hp
  | nothingToEvaluate | tooComplex | resultTooLarge => decide +kernel
  | tooLong | tooDeep | factorialOf | factorialTooLarge | tooManyDice | noFaces =>
    simp only [oneline_append, oneline_toString, oneline_nat, oneline_int, oneline_text,
      unbroken_shortestText, unbroken_generalText]
    decide +kernel
  | unbalancedParentheses t | unbalancedBrackets t | emptyGroup t | malformedGroup t
  | factorialOfNothing t | malformedCall t | notANumeral t | tooLarge t | divisionByZero t
  | moduloByZero t | noRemainder t | zeroToZero t | noRealValue t =>
    cases hp
    have ht : Unbroken t := h t List.mem_cons_self
    simp only [oneline_append, oneline_toString, oneline_quoted, ht]
    decide +kernel
  | argumentList name | wrongArity name | outsideDomain name | listOutsideDomain name
  | argumentTooLarge name | notRepresentable name =>
    cases hp
    have hname : Oneline name := h name.toList List.mem_cons_self
    simp only [oneline_append, oneline_toString, oneline_nat, oneline_text, unbroken_displayText,
      unbroken_listed, hname]
    decide +kernel
  | missingArgument name t =>
    cases hp
    have hname : Oneline name := h name.toList List.mem_cons_self
    have ht : Unbroken t := h t (List.mem_cons_of_mem _ List.mem_cons_self)
    simp only [oneline_append, oneline_toString, oneline_quoted, hname, ht]
    decide +kernel

theorem oneline_step {s : Step} {quoted : List Text} (hs : s.quotes? = some quoted)
    (h : ∀ u ∈ quoted, Unbroken u) : Oneline s.message ∧ Unbroken s.fragment := by
  unfold Step.message Step.fragment
  cases s with
  | stated => cases hs
  | argumentList group replacement =>
    cases hs
    have hgroup : Unbroken group := h group List.mem_cons_self
    have hreplacement : Unbroken replacement := h replacement (by simp)
    simp only [oneline_append, oneline_toString, oneline_text, hgroup, hreplacement]
    decide +kernel
  | groupValue t | factorial _ _ t =>
    cases hs
    have ht : Unbroken t := h t List.mem_cons_self
    simp only [oneline_append, oneline_toString, oneline_text, unbroken_displayText, ht]
    decide +kernel
  | binary _ symbol _ _ t =>
    cases hs
    have hsymbol : Unbroken [symbol] := h [symbol] List.mem_cons_self
    have ht : Unbroken t := h t (by simp)
    simp only [oneline_append, oneline_toString, oneline_char, oneline_text, unbroken_displayText,
      hsymbol, ht]
    decide +kernel
  | call name _ _ t | constant name _ t =>
    cases hs
    have hname : Oneline name := h name.toList List.mem_cons_self
    have ht : Unbroken t := h t (by simp)
    simp only [oneline_append, oneline_toString, oneline_text, unbroken_displayText,
      unbroken_shortestText, unbroken_listed, hname, ht]
    decide +kernel

/-- The texts that an entry shows. -/
def Event.wordings : Event → List Text
  | .problem p => [p.message.toList]
  | .step s => [s.message.toList, s.fragment]
  | .roll line => [line.text]

/-- **Wordings.** Whatever is shown of an entry about a text without blanks is on one line. -/
theorem unbroken_wordings {t : Text} {e : Event} (he : Concerns t e)
    (ht : ∀ c ∈ t, isBlank c = false) : ∀ w ∈ e.wordings, Unbroken w := by
  obtain ⟨quoted, hquotes, hquoted⟩ := he
  have hunbroken : ∀ u ∈ quoted, Unbroken u := fun u hu => unbroken_of_solid fun c hc => by
    by_contra hblank
    have hfrom : c ∈ t := hquoted u hu c hc (by simpa using hblank)
    exact hblank (ht c hfrom)
  cases e with
  | problem p => exact List.forall_mem_singleton.mpr (oneline_problem hquotes hunbroken)
  | step s =>
    obtain ⟨hmessage, hfragment⟩ := oneline_step hquotes hunbroken
    exact List.forall_mem_cons.mpr ⟨hmessage, List.forall_mem_singleton.mpr hfragment⟩
  | roll line =>
    cases line with
    | stated line => cases hquotes
    | rolled count faces shown cut total =>
      exact List.forall_mem_singleton.mpr (isLineBreak_rolled count faces shown cut total)

end Reckoner

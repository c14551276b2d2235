import Reckoner.Proofs.Derivation

/-!
# What stands before an argument

Numerals, names of functions and names of constants are written with few characters, and the
letter `d` and the brackets are not among them. So in front of the argument of a call, and in
a text that is read as a number, nothing rolls dice and nothing opens or closes a group.
-/

namespace Reckoner

/-- The characters of numerals and names: those of numbers, and what holds a letter other than
`d`. -/
def IsWordChar (c : Char) : Prop :=
  IsNumberChar c ∨ ∃ d ∈ lowerForm c, d.isLower = true ∧ d ≠ 'd'

theorem not_isWordChar_d : ¬IsWordChar 'd' := by
  rintro (h | ⟨d, hd, -, hne⟩)
  · exact ne_of_isNumberChar h (by decide) (by decide) rfl
  · have hform : lowerForm 'd' = ['d'] := by decide
    rw [hform, List.mem_singleton] at hd
    exact hne hd

theorem isBracket_of_isWordChar {c : Char} (h : IsWordChar c) : isBracket c = false := by
  rcases h with h | ⟨d, hd, hlower, -⟩
  · exact isBracket_of_isNumberChar h
  · by_contra hb
    have hbracket : c ∈ ['(', ')', '[', ']'] := by
      simp only [isBracket, isOpener, isCloser, Bool.not_eq_false, Bool.or_eq_true,
        beq_iff_eq] at hb
      simp only [List.mem_cons, List.not_mem_nil, or_false]
      tauto
    have hall : ∀ b ∈ ['(', ')', '[', ']'], ∀ d ∈ lowerForm b, d.isLower = false := by decide
    rw [hall c hbracket d hd] at hlower
    cases hlower

/-! ## Numerals -/

theorem isNumberChar_of_readsAs {t : Text} {x : Float} (h : ReadsAs t x) :
    ∀ c ∈ t, IsNumberChar c ∨ c = 'e' :=
  isNumberChar_of_ofText h.choose_spec.1

theorem isWordChar_of_readsAs {t : Text} {x : Float} (h : ReadsAs t x) :
    ∀ c ∈ t, IsWordChar c := by
  intro c hc
  rcases isNumberChar_of_readsAs h c hc with hnumber | rfl
  · exact .inl hnumber
  · exact .inr ⟨'e', by decide, by decide, by decide⟩

/-! ## Names -/

/-- The characters of a number, and the letters of a name whatever their case. -/
def IsCallChar (name : String) (c : Char) : Prop :=
  IsNumberChar c ∨ ∃ d ∈ name.toList, lowerForm c = [d]

theorem IsCallChar.isWordChar {name : String} {c : Char} (h : IsCallChar name c)
    (hname : ∀ d ∈ name.toList, d.isLower = true ∧ d ≠ 'd') : IsWordChar c := by
  rcases h with h | ⟨d, hd, hform⟩
  · exact .inl h
  · exact .inr ⟨d, hform ▸ List.mem_singleton_self d, hname d hd⟩

/-- What stands before the argument of a call. Its last character is that of a name. -/
theorem exists_callHead {t : Text} {name : String} (hne : name.toList ≠ [])
    (hname : ∀ d ∈ name.toList, d.isLower = true) (hlast : name.toList.getLast? ≠ some 'i')
    (hstarts : startsName (calleeText t).lowered name = true) :
    ∃ head, t = head ++ (calleeText t).drop name.length ∧ (∀ c ∈ head, IsCallChar name c) ∧
      ∀ c, head.getLast? = some c → isDigitLike c = false := by
  have hword : ∀ c ∈ (calleeText t).take name.length, ∃ d ∈ name.toList, lowerForm c = [d] := by
    intro c hc
    rw [← String.length_toList] at hc
    refine (lowerForm_of_mem_take hname hstarts c hc).resolve_right ?_
    rintro ⟨-, hi⟩
    exact hlast hi
  refine ⟨(takeMultiplier t).1 ++ (calleeText t).take name.length, ?_, fun c hc => ?_,
    fun c hc => ?_⟩
  · rw [List.append_assoc, List.take_append_drop, calleeText, multiplier_append]
  · rcases List.mem_append.mp hc with hc | hc
    · exact .inl (isNumberChar_of_mem_multiplier c hc)
    · exact .inr (hword c hc)
  · have hcallee : calleeText t ≠ [] := by
      intro hnil
      rw [startsName, hnil, Text.lowered, List.flatMap_nil] at hstarts
      exact hne (List.isEmpty_iff.mp (by simpa using hstarts))
    have htake : (calleeText t).take name.length ≠ [] := by
      rw [Ne, List.take_eq_nil_iff, not_or, ← String.length_toList]
      exact ⟨fun h => hne (List.eq_nil_of_length_eq_zero h), hcallee⟩
    rw [List.getLast?_append_of_ne_nil _ htake] at hc
    obtain ⟨d, hd, hform⟩ := hword c (List.mem_of_getLast? hc)
    by_contra hdigit
    have hnot := not_isLower_of_isDigitLike (by simpa using hdigit) d
      (hform ▸ List.mem_singleton_self d)
    rw [hname d hd] at hnot
    cases hnot

theorem unaryName_char :
    ∀ f ∈ unaryFunctions, ∀ d ∈ f.name.toList, d.isLower = true ∧ d ≠ 'd' := by
  simp only [unaryFunctions, List.forall_mem_cons]
  decide

theorem listName_char :
    ∀ f ∈ listFunctions, ∀ d ∈ f.name.toList, d.isLower = true ∧ d ≠ 'd' := by
  simp only [listFunctions, List.forall_mem_cons]
  decide

theorem exists_unaryCall {t : Text} {f : UnaryFunction}
    (hf : findUnaryFunction (calleeText t) = some f) :
    ∃ head, t = head ++ (calleeText t).drop f.name.length ∧ (∀ c ∈ head, IsCallChar f.name c) ∧
      ∀ c, head.getLast? = some c → isDigitLike c = false := by
  obtain ⟨hmem, hstarts⟩ := mem_of_findUnaryFunction hf
  exact exists_callHead (unaryName_ne_nil f hmem) (isLower_of_mem_unaryFunctions f hmem)
    (unaryName_last f hmem) hstarts

theorem exists_unaryHead {t : Text} {f : UnaryFunction}
    (hf : findUnaryFunction (calleeText t) = some f) :
    ∃ head, t = head ++ (calleeText t).drop f.name.length ∧ (∀ c ∈ head, IsWordChar c) ∧
      ∀ c, head.getLast? = some c → isDigitLike c = false := by
  obtain ⟨head, ht, hhead, hlast⟩ := exists_unaryCall hf
  have hname := unaryName_char f (mem_of_findUnaryFunction hf).1
  exact ⟨head, ht, fun c hc => (hhead c hc).isWordChar hname, hlast⟩

theorem exists_listCall {t : Text} {f : ListFunction}
    (hf : findListFunction (calleeText t) = some f) :
    ∃ head, t = head ++ (calleeText t).drop f.name.length ∧ (∀ c ∈ head, IsCallChar f.name c) ∧
      ∀ c, head.getLast? = some c → isDigitLike c = false := by
  obtain ⟨hmem, hstarts⟩ := mem_of_findListFunction hf
  exact exists_callHead (listName_ne_nil f hmem) (isLower_of_mem_listFunctions f hmem)
    (listName_last f hmem) hstarts

theorem exists_listHead {t : Text} {f : ListFunction}
    (hf : findListFunction (calleeText t) = some f) :
    ∃ head, t = head ++ (calleeText t).drop f.name.length ∧ (∀ c ∈ head, IsWordChar c) ∧
      ∀ c, head.getLast? = some c → isDigitLike c = false := by
  obtain ⟨head, ht, hhead, hlast⟩ := exists_listCall hf
  have hname := listName_char f (mem_of_findListFunction hf).1
  exact ⟨head, ht, fun c hc => (hhead c hc).isWordChar hname, hlast⟩

theorem isWordChar_of_mem_constant {k : Constant} (hk : k ∈ constants) :
    ∀ c ∈ k.name.toList, IsWordChar c := by
  have hname : ∀ k ∈ constants, ∀ c ∈ k.name.toList,
      isDecimalDigit c = true ∨ (lowerForm c = [c.toLower] ∧ c.toLower.isLower = true ∧
        c.toLower ≠ 'd') := by
    simp only [constants, List.forall_mem_cons]
    decide
  intro c hc
  rcases hname k hk c hc with hdigit | ⟨hform, hlower⟩
  · exact .inl (.inl hdigit)
  · exact .inr ⟨c.toLower, hform ▸ List.mem_singleton_self _, hlower⟩

end Reckoner

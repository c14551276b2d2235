import Reckoner.Evaluation
import Reckoner.Proofs.Number.Spelling
import Mathlib.Data.List.Find
import Mathlib.Tactic.SplitIfs

/-!
# Looking up names

A registered name followed by something that is no letter is found, and no other name is: among
the names of a table that fit, the one in question comes first, and what follows it cannot be
part of a longer one. A constant is found at the end of a text whatever is before it.
-/

namespace Reckoner

/-! ## The tables -/

theorem mem_of_findListFunction {t : Text} {f : ListFunction} (h : findListFunction t = some f) :
    f ∈ listFunctions ∧ startsName t.lowered f.name = true := by
  have hfind : listFunctions.find? (fun f => startsName t.lowered f.name) = some f := h
  have hstarts := List.find?_some hfind
  exact ⟨List.mem_of_find?_eq_some hfind, hstarts⟩

theorem mem_of_findUnaryFunction {t : Text} {f : UnaryFunction}
    (h : findUnaryFunction t = some f) :
    f ∈ unaryFunctions ∧ startsName t.lowered f.name = true := by
  have hfind : unaryFunctions.find? (fun f => startsName t.lowered f.name) = some f := h
  have hstarts := List.find?_some hfind
  exact ⟨List.mem_of_find?_eq_some hfind, hstarts⟩

theorem mem_of_findConstant {t : Text} {k : Constant} (h : findConstant t = some k) :
    k ∈ constants ∧ k.name.toList <:+ t := by
  have hfind : constants.find? (fun k => k.name.toList.isSuffixOf t) = some k := h
  have hends := List.find?_some hfind
  exact ⟨List.mem_of_find?_eq_some hfind, List.isSuffixOf_iff_suffix.mp hends⟩

/-- What is behind a name. -/
theorem drop_name (name : String) (t : Text) : (name.toList ++ t).drop name.length = t := by
  rw [← String.length_toList, List.drop_left]

/-- What is in front of a name at the end. -/
theorem take_name (t : Text) (name : String) :
    (t ++ name.toList).take ((t ++ name.toList).length - name.length) = t := by
  rw [List.length_append, String.length_toList, Nat.add_sub_cancel, List.take_left]

theorem listName_ne_nil : ∀ f ∈ listFunctions, f.name.toList ≠ [] := by
  simp only [listFunctions, List.forall_mem_cons]
  decide

theorem unaryName_ne_nil : ∀ f ∈ unaryFunctions, f.name.toList ≠ [] := by
  simp only [unaryFunctions, List.forall_mem_cons]
  decide

theorem constantName_ne_nil : ∀ k ∈ constants, k.name.toList ≠ [] := by
  simp only [constants, List.forall_mem_cons]
  decide

theorem isLower_of_mem_listFunctions :
    ∀ f ∈ listFunctions, ∀ d ∈ f.name.toList, d.isLower = true := by
  simp only [listFunctions, List.forall_mem_cons]
  decide

theorem isLower_of_mem_unaryFunctions :
    ∀ f ∈ unaryFunctions, ∀ d ∈ f.name.toList, d.isLower = true := by
  simp only [unaryFunctions, List.forall_mem_cons]
  decide

theorem listName_last : ∀ f ∈ listFunctions, f.name.toList.getLast? ≠ some 'i' := by
  simp only [listFunctions, List.forall_mem_cons]
  decide

theorem unaryName_last : ∀ f ∈ unaryFunctions, f.name.toList.getLast? ≠ some 'i' := by
  simp only [unaryFunctions, List.forall_mem_cons]
  decide

/-- What holds no letter, neither does so in lower case. -/
theorem not_isLower_lowerForm {c : Char} (hupper : c.toNat < 65 ∨ 90 < c.toNat)
    (hlower : c.toNat < 97 ∨ 122 < c.toNat) (hdotted : c.toNat ≠ 0x130)
    (hkelvin : c.toNat ≠ 0x212a) :
    ∀ d ∈ lowerForm c, d.isLower = false := by
  have hkelvin : (c == '\u212a') = false := beq_false_of_ne fun h => hkelvin (h ▸ rfl)
  have hdotted : (c == '\u0130') = false := beq_false_of_ne fun h => hdotted (h ▸ rfl)
  have hupper : ¬(c.val ≥ 'A'.val ∧ c.val ≤ 'Z'.val) := by
    rintro ⟨hA, hZ⟩
    have hA' : 65 ≤ c.toNat := hA
    have hZ' : c.toNat ≤ 90 := hZ
    omega
  have htoLower : c.toLower = c := dif_neg hupper
  intro d hd
  rw [lowerForm, hkelvin, if_neg Bool.false_ne_true, hdotted, if_neg Bool.false_ne_true,
    htoLower, List.mem_singleton] at hd
  rw [hd, ← Bool.not_eq_true]
  intro hletter
  obtain ⟨ha, hz⟩ := Bool.and_eq_true_iff.mp hletter
  have ha' : 97 ≤ c.toNat := of_decide_eq_true ha
  have hz' : c.toNat ≤ 122 := of_decide_eq_true hz
  omega

theorem not_isLower_of_isDecimalDigit {c : Char} (h : isDecimalDigit c = true) :
    ∀ d ∈ lowerForm c, d.isLower = false := by
  obtain ⟨row, hrow, hlow, hhigh⟩ := exists_row_of_isDecimalDigit h
  have hall : ∀ row ∈ digitRows, (90 < row ∨ row + 10 ≤ 65) ∧ (122 < row ∨ row + 10 ≤ 97) ∧
      (0x130 < row ∨ row + 10 ≤ 0x130) ∧ (0x212a < row ∨ row + 10 ≤ 0x212a) := by decide
  have hnumber := hall row hrow
  exact not_isLower_lowerForm (by omega) (by omega) (by omega) (by omega)

/-- No letter looks like a digit. -/
theorem not_isLower_of_isDigitLike {c : Char} (h : isDigitLike c = true) :
    ∀ d ∈ lowerForm c, d.isLower = false := by
  rcases isDigitLike_cases h with hdigit | ⟨range, hrange, hlow, hhigh⟩
  · exact not_isLower_of_isDecimalDigit hdigit
  · have hall : ∀ range ∈ digitLikeRanges, 122 < range.1 ∧
        (0x130 < range.1 ∨ range.2 < 0x130) ∧ (0x212a < range.1 ∨ range.2 < 0x212a) := by decide
    have hnumber := hall range hrange
    exact not_isLower_lowerForm (by omega) (by omega) (by omega) (by omega)

/-! ## Prefixes -/

/-- No name goes on with this text. -/
def EndsName (t : Text) : Prop :=
  ∀ c, t.head? = some c → ∀ d ∈ lowerForm c, d.isLower = false

/-- A word in lower case starts a text if it starts the part before the first other
character. -/
theorem isPrefixOf_append {word x rest : Text} (hword : ∀ d ∈ word, d.isLower = true)
    (hrest : ∀ d, rest.head? = some d → d.isLower = false) :
    word.isPrefixOf (x ++ rest) = word.isPrefixOf x := by
  induction word generalizing x with
  | nil => simp
  | cons a word ih =>
    have ha := hword a List.mem_cons_self
    have htail := fun d hd => hword d (List.mem_cons_of_mem a hd)
    cases x with
    | cons b x => rw [List.cons_append, List.isPrefixOf_cons_cons, List.isPrefixOf_cons_cons, ih htail]
    | nil =>
      cases rest with
      | nil => rfl
      | cons d rest =>
        have hd := hrest d rfl
        have hne : (a == d) = false := by
          refine beq_false_of_ne ?_
          rintro rfl
          rw [ha] at hd
          cases hd
        rw [List.nil_append, List.isPrefixOf_cons_cons, hne]
        rfl

theorem head?_lowered {t : Text} (h : EndsName t) :
    ∀ d, t.lowered.head? = some d → d.isLower = false := by
  intro d hd
  cases t with
  | nil => cases hd
  | cons c t =>
    have hc := h c rfl
    obtain ⟨e, rest, hform⟩ : ∃ e rest, lowerForm c = e :: rest := by
      unfold lowerForm
      split_ifs
      · exact ⟨_, _, rfl⟩
      · exact ⟨_, _, rfl⟩
      · exact ⟨_, _, rfl⟩
    rw [Text.lowered, List.flatMap_cons, hform] at hd
    rw [hform] at hc
    cases hd
    exact hc d List.mem_cons_self

theorem lowered_append (s t : Text) : Text.lowered (s ++ t) = s.lowered ++ t.lowered :=
  List.flatMap_append

/-- The characters in the place of a name are its letters, whatever their case; only a last `i`
may be one half of another character. -/
theorem lowerForm_of_mem_take {name t : Text} (hname : ∀ d ∈ name, d.isLower = true)
    (h : name.isPrefixOf t.lowered = true) :
    ∀ c ∈ t.take name.length, (∃ d ∈ name, lowerForm c = [d]) ∨
      c = '\u0130' ∧ name.getLast? = some 'i' := by
  induction t generalizing name with
  | nil => simp
  | cons x t ih =>
    cases name with
    | nil => simp
    | cons a name =>
      have hrest : ∀ d ∈ name, d.isLower = true := fun d hd => hname d (List.mem_cons_of_mem a hd)
      rw [Text.lowered, List.flatMap_cons] at h
      intro c hcx
      rw [List.length_cons, List.take_succ_cons] at hcx
      by_cases hdot : x = '\u0130'
      · -- the second character that this one becomes is no letter, so the name ends here
        subst hdot
        have hform : lowerForm '\u0130' = ['i', '\u0307'] := by decide
        rw [hform, List.cons_append, List.isPrefixOf_cons_cons, Bool.and_eq_true, beq_iff_eq] at h
        cases name with
        | nil =>
          rw [List.length_nil, List.take_zero, List.mem_singleton] at hcx
          exact .inr ⟨hcx, by rw [h.1]; rfl⟩
        | cons b name =>
          rw [List.cons_append, List.isPrefixOf_cons_cons, Bool.and_eq_true, beq_iff_eq] at h
          have hb := hrest b List.mem_cons_self
          rw [h.2.1] at hb
          exact absurd hb (by decide)
      · obtain ⟨y, hform⟩ : ∃ y, lowerForm x = [y] := by
          unfold lowerForm
          split_ifs with hk hd
          · exact ⟨_, rfl⟩
          · exact absurd (eq_of_beq hd) hdot
          · exact ⟨_, rfl⟩
        rw [hform, List.cons_append, List.isPrefixOf_cons_cons, Bool.and_eq_true, beq_iff_eq] at h
        rcases List.mem_cons.mp hcx with rfl | hcx
        · exact .inl ⟨y, by simp [h.1], hform⟩
        · rcases ih hrest h.2 c hcx with ⟨d, hd, hform⟩ | ⟨hc, hlast⟩
          · exact .inl ⟨d, List.mem_cons_of_mem a hd, hform⟩
          · exact .inr ⟨hc, by rw [List.getLast?_cons, hlast]; rfl⟩

/-- The characters in the place of a name have its letters in lower case. -/
theorem exists_mem_name_of_mem_take {name t : Text} (hname : ∀ d ∈ name, d.isLower = true)
    (h : name.isPrefixOf t.lowered = true) :
    ∀ c ∈ t.take name.length, ∃ d ∈ lowerForm c, d ∈ name := by
  intro c hc
  rcases lowerForm_of_mem_take hname h c hc with ⟨d, hd, hform⟩ | ⟨rfl, hlast⟩
  · exact ⟨d, hform ▸ List.mem_singleton_self d, hd⟩
  · exact ⟨'i', by decide, List.mem_of_getLast? hlast⟩

/-! ## Functions -/

theorem lowered_listName {f : ListFunction} (h : f ∈ listFunctions) :
    Text.lowered f.name.toList = f.name.toList := by
  revert f
  simp only [listFunctions, List.forall_mem_cons]
  decide

theorem lowered_unaryName {f : UnaryFunction} (h : f ∈ unaryFunctions) :
    Text.lowered f.name.toList = f.name.toList := by
  revert f
  simp only [unaryFunctions, List.forall_mem_cons]
  decide

/-- In the table of the functions of lists the name stands before every part of it. -/
theorem find?_listName {f : ListFunction} (h : f ∈ listFunctions) :
    listFunctions.find? (fun g => g.name.toList.isPrefixOf f.name.toList) = some f := by
  simp only [listFunctions, List.mem_cons, List.not_mem_nil, or_false] at h
  rcases h with rfl | rfl | rfl <;> rfl

theorem find?_unaryName {f : UnaryFunction} (h : f ∈ unaryFunctions) :
    listFunctions.find? (fun g => g.name.toList.isPrefixOf f.name.toList) = none ∧
      unaryFunctions.find? (fun g => g.name.toList.isPrefixOf f.name.toList) = some f := by
  simp only [unaryFunctions, List.mem_cons, List.not_mem_nil, or_false] at h
  rcases h with rfl | rfl | rfl | rfl | rfl | rfl | rfl | rfl | rfl | rfl | rfl | rfl | rfl | rfl |
    rfl | rfl <;> exact ⟨rfl, rfl⟩

/-- Behind a name in lower case only that name matters. -/
theorem findListFunction_append {name tail : Text} (hname : name.lowered = name)
    (htail : EndsName tail) :
    findListFunction (name ++ tail) =
      listFunctions.find? fun g => g.name.toList.isPrefixOf name := by
  refine List.find?_congr fun g hg => ?_
  rw [startsName, lowered_append, hname]
  exact isPrefixOf_append (isLower_of_mem_listFunctions g hg) (head?_lowered htail)

theorem findUnaryFunction_append {name tail : Text} (hname : name.lowered = name)
    (htail : EndsName tail) :
    findUnaryFunction (name ++ tail) =
      unaryFunctions.find? fun g => g.name.toList.isPrefixOf name := by
  refine List.find?_congr fun g hg => ?_
  rw [startsName, lowered_append, hname]
  exact isPrefixOf_append (isLower_of_mem_unaryFunctions g hg) (head?_lowered htail)

/-! ## Constants -/

/-- The name of a constant is no function. -/
theorem findFunction_constant {k : Constant} (h : k ∈ constants) :
    findListFunction k.name.toList = none ∧ findUnaryFunction k.name.toList = none := by
  simp only [constants, List.mem_cons, List.not_mem_nil, or_false] at h
  rcases h with rfl | rfl | rfl | rfl | rfl | rfl | rfl | rfl | rfl <;> exact ⟨rfl, rfl⟩

/-- No constant's name ends another one's. -/
theorem eq_of_isSuffix {k l : Constant} (hk : k ∈ constants) (hl : l ∈ constants)
    (h : k.name.toList <:+ l.name.toList) : k = l := by
  simp only [constants, List.mem_cons, List.not_mem_nil, or_false] at hk hl
  rcases hk with rfl | rfl | rfl | rfl | rfl | rfl | rfl | rfl | rfl <;>
    rcases hl with rfl | rfl | rfl | rfl | rfl | rfl | rfl | rfl | rfl <;>
      first | rfl | exact absurd h (by decide)

theorem findConstant_append {k : Constant} (h : k ∈ constants) (front : Text) :
    findConstant (front ++ k.name.toList) = some k := by
  have hk : k.name.toList.isSuffixOf (front ++ k.name.toList) = true :=
    List.isSuffixOf_iff_suffix.mpr (List.suffix_append front _)
  obtain ⟨l, hl⟩ : ∃ l, findConstant (front ++ k.name.toList) = some l := by
    refine Option.isSome_iff_exists.mp (List.find?_isSome.mpr ⟨k, h, hk⟩)
  obtain ⟨hmem, hends⟩ := mem_of_findConstant hl
  rw [hl]
  rcases List.suffix_or_suffix_of_suffix hends (List.suffix_append front _) with hs | hs
  · rw [eq_of_isSuffix hmem h hs]
  · rw [eq_of_isSuffix h hmem hs]

end Reckoner

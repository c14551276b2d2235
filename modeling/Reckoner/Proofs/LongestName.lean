import Reckoner.Proofs.Name
import Mathlib.Data.List.Rotate

/-!
# The longest name that fits

A table is searched from its front, and the first name that fits is taken. Names that fit one
text start (or end) one another, so that is the longest name that fits as long as no name stands
before a longer one that it starts (or ends), and the order is of no account otherwise
(`isLongest_find?`). Names of functions are looked for in the lower case of a text but cut off
the text itself. That is right because a name in lower case can only come from as many Latin
letters (`isPrefix_lower_iff`), although the lower case of other characters may be longer than
they are. Main statement: `find_longestNames`.
-/

namespace Reckoner

/-! ## Lower case -/

/-- A form of a character in lower case. Where it has a small Latin letter it is as told by
`lowerForm`; else it may be any characters but those. -/
def IsLowerForm (c : Char) (form : Text) : Prop :=
  form = lowerForm c ∨
    form ≠ [] ∧ (∀ d ∈ lowerForm c, d.isLower = false) ∧ ∀ d ∈ form, d.isLower = false

/-- A text in lower case: a form of each character, one after another. Equal characters may have
different forms, as the one that ends a word may have. -/
inductive IsLowerCase : Text → Text → Prop where
  | nil : IsLowerCase [] []
  | cons {c : Char} {form t lower : Text} (hc : IsLowerForm c form) (ht : IsLowerCase t lower) :
    IsLowerCase (c :: t) (form ++ lower)

theorem isLowerCase_lowered (t : Text) : IsLowerCase t t.lowered := by
  induction t with
  | nil => exact .nil
  | cons c t ih => exact .cons (.inl rfl) ih

theorem lowerForm_cases (c : Char) :
    c = '\u212a' ∨ c = '\u0130' ∨ lowerForm c = [c.toLower] := by
  unfold lowerForm
  split_ifs with hk hi
  · exact .inl (eq_of_beq hk)
  · exact .inr (.inl (eq_of_beq hi))
  · exact .inr (.inr rfl)

theorem isAlpha_of_isLower_toLower {c : Char} (h : c.toLower.isLower = true) :
    c.isAlpha = true := by
  refine (Bool.or_eq_true _ _).mpr ?_
  by_cases hupper : c.isUpper = true
  · exact .inl hupper
  · have hsame : c.toLower = c := by
      refine dif_neg fun hrange => hupper ?_
      exact decide_eq_true hrange
    rw [hsame] at h
    exact .inr h

/-- A letter has one form only. -/
theorem IsLowerForm.eq_of_letter {c : Char} {form : Text} (h : IsLowerForm c form)
    (hc : c.toLower.isLower = true) : form = [c.toLower] := by
  have hform : lowerForm c = [c.toLower] := by
    obtain rfl | rfl | hform := lowerForm_cases c
    · exact absurd hc (by decide)
    · exact absurd hc (by decide)
    · exact hform
  obtain rfl | ⟨-, hnone, -⟩ := h
  · exact hform
  · have hlower := hnone c.toLower (hform ▸ List.mem_singleton_self _)
    rw [hc] at hlower
    cases hlower

/-! ## Names in lower case -/

/-- A name that only Latin letters can give. The sign for Kelvin gives a `k`, and the capital
with a dot an `i` which no letter follows. -/
structure IsPlainName (name : Text) : Prop where
  lower : ∀ d ∈ name, d.isLower = true
  no_k : 'k' ∉ name
  last : name.getLast? ≠ some 'i'

theorem IsPlainName.tail {a : Char} {name : Text} (h : IsPlainName (a :: name)) :
    IsPlainName name where
  lower d hd := h.lower d (List.mem_cons_of_mem a hd)
  no_k hk := h.no_k (List.mem_cons_of_mem a hk)
  last hi := h.last (by rw [List.getLast?_cons, hi]; rfl)

/-- What gives the first letter of a plain name is that letter. -/
theorem IsLowerForm.letter_of_isPrefix {c a : Char} {form name lower : Text}
    (hc : IsLowerForm c form) (hname : IsPlainName (a :: name))
    (h : a :: name <+: form ++ lower) : form = [a] ∧ c.toLower = a := by
  have ha := hname.lower a List.mem_cons_self
  obtain rfl | ⟨hne, -, hnone⟩ := hc
  · obtain rfl | rfl | hform := lowerForm_cases c
    · have hk : a = 'k' := (List.cons_prefix_cons.mp h).1
      exact absurd (hk ▸ List.mem_cons_self) hname.no_k
    · obtain ⟨rfl, hrest⟩ : a = 'i' ∧ name <+: '\u0307' :: lower := List.cons_prefix_cons.mp h
      cases name with
      | nil => exact absurd rfl hname.last
      | cons b name =>
        have hb := hname.tail.lower b List.mem_cons_self
        rw [(List.cons_prefix_cons.mp hrest).1] at hb
        exact absurd hb (by decide)
    · rw [hform] at h ⊢
      obtain rfl := (List.cons_prefix_cons.mp h).1
      exact ⟨rfl, rfl⟩
  · obtain ⟨d, form, rfl⟩ := List.exists_cons_of_ne_nil hne
    obtain rfl := (List.cons_prefix_cons.mp h).1
    rw [hnone a List.mem_cons_self] at ha
    cases ha

/-- The lower case of a text starts with a plain name exactly if the text starts with its
letters, each in either case. -/
theorem isPrefix_lower_iff {name t lower : Text} (hname : IsPlainName name)
    (h : IsLowerCase t lower) :
    name <+: lower ↔ (t.take name.length).map Char.toLower = name := by
  induction h generalizing name with
  | nil => simp [eq_comm]
  | @cons c form t lower hc _ ih =>
    cases name with
    | nil => simp
    | cons a name =>
      rw [List.length_cons, List.take_succ_cons, List.map_cons, List.cons.injEq]
      constructor
      · intro hstarts
        obtain ⟨rfl, hletter⟩ := hc.letter_of_isPrefix hname hstarts
        exact ⟨hletter, (ih hname.tail).mp (List.cons_prefix_cons.mp hstarts).2⟩
      · rintro ⟨rfl, hrest⟩
        rw [hc.eq_of_letter (hname.lower _ List.mem_cons_self)]
        exact List.cons_prefix_cons.mpr ⟨rfl, (ih hname.tail).mpr hrest⟩

/-- Behind a plain name a text and its lower case go on as a text and its lower case. -/
theorem IsLowerCase.drop {name t lower : Text} (hname : IsPlainName name)
    (h : IsLowerCase t lower) (hstarts : name <+: lower) :
    IsLowerCase (t.drop name.length) (lower.drop name.length) := by
  induction h generalizing name with
  | nil =>
    rw [List.prefix_nil.mp hstarts]
    exact .nil
  | @cons c form t lower hc ht ih =>
    cases name with
    | nil => exact .cons hc ht
    | cons a name =>
      obtain ⟨rfl, -⟩ := hc.letter_of_isPrefix hname hstarts
      exact ih hname.tail (List.cons_prefix_cons.mp hstarts).2

/-- The letters of a name stand at the front of a text, each in either case, and are all that
has to be taken off the text to take the name off its lower case. -/
structure Spells (name : String) (t lower : Text) : Prop where
  letters : ∀ c ∈ t.take name.length, c.isAlpha = true
  spelled : (t.take name.length).map Char.toLower = name.toList
  rest : IsLowerCase (t.drop name.length) (lower.drop name.length)

theorem spells_of_isPrefix {name : String} {t lower : Text} (hname : IsPlainName name.toList)
    (h : IsLowerCase t lower) (hstarts : name.toList <+: lower) : Spells name t lower := by
  have hspelled := (isPrefix_lower_iff hname h).mp hstarts
  have hrest := h.drop hname hstarts
  rw [String.length_toList] at hspelled hrest
  refine ⟨fun c hc => isAlpha_of_isLower_toLower (hname.lower _ ?_), hspelled, hrest⟩
  rw [← hspelled]
  exact List.mem_map_of_mem hc

/-! ## Tables in order -/

/-- Parts that stand at one end of a text: of two of them one is a part of the other. -/
structure AtOneEnd (part : Text → Text → Prop) : Prop where
  nested : ∀ {u v t}, part u t → part v t → part u v ∨ part v u
  length_le : ∀ {u v}, part u v → u.length ≤ v.length
  eq_of_length : ∀ {u v}, part u v → u.length = v.length → u = v

theorem atOneEnd_prefix : AtOneEnd (· <+: ·) where
  nested hu hv := List.prefix_or_prefix_of_prefix hu hv
  length_le h := h.length_le
  eq_of_length h hlength := h.eq_of_length hlength

theorem atOneEnd_suffix : AtOneEnd (· <:+ ·) where
  nested hu hv := List.suffix_or_suffix_of_suffix hu hv
  length_le h := h.length_le
  eq_of_length h hlength := h.eq_of_length hlength

section Tables

variable {α : Type} {part : Text → Text → Prop} {name : α → Text} {t : Text}

/-- The right answer to a search: the entry with the longest of all names that fit the text, or
none if no name fits. -/
def IsLongest (part : Text → Text → Prop) (name : α → Text) (table : List α) (t : Text) :
    Option α → Prop
  | some x => x ∈ table ∧ part (name x) t ∧
    ∀ y ∈ table, part (name y) t → y = x ∨ (name y).length < (name x).length
  | none => ∀ y ∈ table, ¬part (name y) t

/-- A name that is a part of another one does not stand before it. -/
def LongerFirst (part : Text → Text → Prop) (names : List Text) : Prop :=
  names.Pairwise fun u v => part u v → u = v

/-- There is one right answer, however the table is ordered. -/
theorem IsLongest.unique {table table' : List α} {answer answer' : Option α}
    (hsame : ∀ x, x ∈ table ↔ x ∈ table') (h : IsLongest part name table t answer)
    (h' : IsLongest part name table' t answer') : answer = answer' := by
  cases answer with
  | none =>
    cases answer' with
    | none => rfl
    | some x => exact absurd h'.2.1 (h x ((hsame x).mpr h'.1))
  | some x =>
    cases answer' with
    | none => exact absurd h.2.1 (h' x ((hsame x).mp h.1))
    | some y =>
      obtain rfl | hyx := h.2.2 y ((hsame y).mpr h'.1) h'.2.1
      · rfl
      · obtain rfl | hxy := h'.2.2 x ((hsame x).mp h.1) h.2.1
        · rfl
        · exact absurd hxy hyx.asymm

/-- **The first name that fits is the longest.** -/
theorem isLongest_find? (hpart : AtOneEnd part) {table : List α}
    (hnames : (table.map name).Nodup)
    (hordered : LongerFirst part (table.map name)) {fits : α → Bool}
    (hfits : ∀ x ∈ table, fits x = true ↔ part (name x) t) :
    IsLongest part name table t (table.find? fits) := by
  cases hfind : table.find? fits with
  | none => exact fun y hy hpy => List.find?_eq_none.mp hfind y hy ((hfits y hy).mpr hpy)
  | some x =>
    obtain ⟨hx, before, after, htable, hbefore⟩ := List.find?_eq_some_iff_append.mp hfind
    have hmem : x ∈ table := List.mem_of_find?_eq_some hfind
    have hpx := (hfits x hmem).mp hx
    refine ⟨hmem, hpx, fun y hy hpy => ?_⟩
    have hlater : y ∈ before ∨ y = x ∨ y ∈ after := by simpa [htable] using hy
    obtain hy' | rfl | hy' := hlater
    · -- what stands before the answer does not fit
      have hnot := hbefore y hy'
      rw [(hfits y hy).mpr hpy] at hnot
      cases hnot
    · exact .inl rfl
    · -- what stands behind it is no longer name that the answer is a part of
      rw [LongerFirst, List.pairwise_map, htable, List.pairwise_append, List.pairwise_cons]
        at hordered
      have hsame : name x = name y → y = x :=
        fun h => (List.inj_on_of_nodup_map hnames hmem hy h).symm
      obtain hxy | hyx := hpart.nested hpx hpy
      · exact .inl (hsame (hordered.2.1.1 y hy' hxy))
      · obtain hlt | heq := (hpart.length_le hyx).lt_or_eq
        · exact .inr hlt
        · exact .inl (hsame (hpart.eq_of_length hyx heq).symm)

/-- The order of a table is of no account as long as longer names come first. -/
theorem find?_eq_of_perm (hpart : AtOneEnd part) {table table' : List α}
    (hnames : (table.map name).Nodup) (hperm : table'.Perm table)
    (hordered : LongerFirst part (table.map name))
    (hordered' : LongerFirst part (table'.map name)) {fits fits' : α → Bool}
    (hfits : ∀ x ∈ table, fits x = true ↔ part (name x) t)
    (hfits' : ∀ x ∈ table, fits' x = true ↔ part (name x) t) :
    table'.find? fits' = table.find? fits := by
  have hlongest := isLongest_find? hpart hnames hordered hfits
  have hlongest' := isLongest_find? hpart ((hperm.map name).nodup_iff.mpr hnames) hordered'
    fun x hx => hfits' x (hperm.mem_iff.mp hx)
  exact hlongest'.unique (fun x => hperm.mem_iff) hlongest

end Tables

/-! ## The tables -/

theorem isPlainName_list {f : ListFunction} (hf : f ∈ listFunctions) :
    IsPlainName f.name.toList where
  lower := isLower_of_mem_listFunctions f hf
  no_k := by
    revert f
    simp only [listFunctions, List.forall_mem_cons]
    decide
  last := listName_last f hf

theorem isPlainName_unary {f : UnaryFunction} (hf : f ∈ unaryFunctions) :
    IsPlainName f.name.toList where
  lower := isLower_of_mem_unaryFunctions f hf
  no_k := by
    revert f
    simp only [unaryFunctions, List.forall_mem_cons]
    decide
  last := unaryName_last f hf

theorem longerFirst_listFunctions : LongerFirst (· <+: ·) (listFunctions.map (·.name.toList)) := by
  unfold LongerFirst
  decide

theorem longerFirst_unaryFunctions :
    LongerFirst (· <+: ·) (unaryFunctions.map (·.name.toList)) := by
  unfold LongerFirst
  decide

theorem longerFirst_constants : LongerFirst (· <:+ ·) (constants.map (·.name.toList)) := by
  unfold LongerFirst
  decide

theorem nodup_listNames : (listFunctions.map (·.name.toList)).Nodup := by decide

theorem nodup_unaryNames : (unaryFunctions.map (·.name.toList)).Nodup := by decide

theorem nodup_constantNames : (constants.map (·.name.toList)).Nodup := by decide

/-- No name of one table starts a name of the other. -/
theorem not_isPrefix_names : ∀ u ∈ listFunctions.map (·.name.toList),
    ∀ v ∈ unaryFunctions.map (·.name.toList), ¬u <+: v ∧ ¬v <+: u := by
  decide

/-- It makes no difference which lower case of a text is searched for a name. -/
theorem startsName_lowered_iff {name : String} {t lower : Text}
    (hname : IsPlainName name.toList) (h : IsLowerCase t lower) :
    startsName t.lowered name = true ↔ name.toList <+: lower := by
  rw [startsName, List.isPrefixOf_iff_prefix, isPrefix_lower_iff hname (isLowerCase_lowered t),
    isPrefix_lower_iff hname h]

theorem startsName_iff {name : String} {lower : Text} :
    startsName lower name = true ↔ name.toList <+: lower := List.isPrefixOf_iff_prefix

section Search

variable {t lower : Text} (h : IsLowerCase t lower)
include h

theorem isLongest_findListFunction :
    IsLongest (· <+: ·) (·.name.toList) listFunctions lower (findListFunction t) :=
  isLongest_find? atOneEnd_prefix nodup_listNames longerFirst_listFunctions
    fun _ hf => startsName_lowered_iff (isPlainName_list hf) h

theorem isLongest_findUnaryFunction :
    IsLongest (· <+: ·) (·.name.toList) unaryFunctions lower (findUnaryFunction t) :=
  isLongest_find? atOneEnd_prefix nodup_unaryNames longerFirst_unaryFunctions
    fun _ hf => startsName_lowered_iff (isPlainName_unary hf) h

theorem spells_of_findListFunction {f : ListFunction} (hf : findListFunction t = some f) :
    Spells f.name t lower := by
  obtain ⟨hmem, hstarts⟩ := mem_of_findListFunction hf
  have hname := isPlainName_list hmem
  exact spells_of_isPrefix hname h ((startsName_lowered_iff hname h).mp hstarts)

theorem spells_of_findUnaryFunction {f : UnaryFunction} (hf : findUnaryFunction t = some f) :
    Spells f.name t lower := by
  obtain ⟨hmem, hstarts⟩ := mem_of_findUnaryFunction hf
  have hname := isPlainName_unary hmem
  exact spells_of_isPrefix hname h ((startsName_lowered_iff hname h).mp hstarts)

omit h in
/-- A text does not start with names of both tables. -/
theorem findListFunction_or_findUnaryFunction (t : Text) :
    findListFunction t = none ∨ findUnaryFunction t = none := by
  cases hf : findListFunction t with
  | none => exact .inl rfl
  | some f =>
    cases hg : findUnaryFunction t with
    | none => exact .inr rfl
    | some g =>
      obtain ⟨hf, hstarts⟩ := mem_of_findListFunction hf
      obtain ⟨hg, hstarts'⟩ := mem_of_findUnaryFunction hg
      obtain ⟨hfg, hgf⟩ := not_isPrefix_names _ (List.mem_map_of_mem hf) _
        (List.mem_map_of_mem hg)
      exact ((List.prefix_or_prefix_of_prefix (startsName_iff.mp hstarts)
        (startsName_iff.mp hstarts')).elim hfg hgf).elim

end Search

/-- **The longest names.** Of each table the longest name that fits is found: of functions, the
longest that the lower case of the text starts with, and of constants, the longest that the text
itself ends with. Functions are found in one of their two tables at most; the letters of the name,
each in either case, then stand at the front of the text, so that taking as many characters off
takes off the name and nothing else. And any order of a table gives the same answers, if a name
that is a part of another one does not stand before it. -/
theorem find_longestNames {t lower : Text} (h : IsLowerCase t lower) :
    IsLongest (· <+: ·) (·.name.toList) listFunctions lower (findListFunction t) ∧
    IsLongest (· <+: ·) (·.name.toList) unaryFunctions lower (findUnaryFunction t) ∧
    (findListFunction t = none ∨ findUnaryFunction t = none) ∧
    (∀ f, findListFunction t = some f → Spells f.name t lower) ∧
    (∀ f, findUnaryFunction t = some f → Spells f.name t lower) ∧
    IsLongest (· <:+ ·) (·.name.toList) constants t (findConstant t) ∧
    (∀ table : List ListFunction, table.Perm listFunctions →
      LongerFirst (· <+: ·) (table.map (·.name.toList)) →
      table.find? (startsName lower ·.name) = findListFunction t) ∧
    (∀ table : List UnaryFunction, table.Perm unaryFunctions →
      LongerFirst (· <+: ·) (table.map (·.name.toList)) →
      table.find? (startsName lower ·.name) = findUnaryFunction t) ∧
    ∀ table : List Constant, table.Perm constants →
      LongerFirst (· <:+ ·) (table.map (·.name.toList)) →
      table.find? (·.name.toList.isSuffixOf t) = findConstant t := by
  refine ⟨isLongest_findListFunction h, isLongest_findUnaryFunction h,
    findListFunction_or_findUnaryFunction t, fun f => spells_of_findListFunction h,
    fun f => spells_of_findUnaryFunction h, ?_, fun table hperm hordered => ?_,
    fun table hperm hordered => ?_, fun table hperm hordered => ?_⟩
  · exact isLongest_find? atOneEnd_suffix nodup_constantNames longerFirst_constants
      fun _ _ => List.isSuffixOf_iff_suffix
  · exact find?_eq_of_perm atOneEnd_prefix nodup_listNames hperm longerFirst_listFunctions hordered
      (fun _ hf => startsName_lowered_iff (isPlainName_list hf) h) fun _ _ => startsName_iff
  · exact find?_eq_of_perm atOneEnd_prefix nodup_unaryNames hperm longerFirst_unaryFunctions
      hordered (fun _ hf => startsName_lowered_iff (isPlainName_unary hf) h)
      fun _ _ => startsName_iff
  · exact find?_eq_of_perm atOneEnd_suffix nodup_constantNames hperm longerFirst_constants hordered
      (fun _ _ => List.isSuffixOf_iff_suffix) fun _ _ => List.isSuffixOf_iff_suffix

/-- `sinh` and not `sin`, in mixed case and before a sigma, which has a lower case of its own at
the end of a word; also with the last name of the table put first. -/
theorem find_longestNames_sinh :
    IsLowerCase ['S', 'i', 'N', 'H', '\u03a3'] ['s', 'i', 'n', 'h', '\u03c2'] ∧
      ∃ f, findUnaryFunction ['S', 'i', 'N', 'H', '\u03a3'] = some f ∧ f.name = "sinh" ∧
        Spells f.name ['S', 'i', 'N', 'H', '\u03a3'] ['s', 'i', 'n', 'h', '\u03c2'] ∧
        (unaryFunctions.rotate 15).find? (startsName ['s', 'i', 'n', 'h', '\u03c2'] ·.name) =
          some f := by
  have hletter : ∀ {c : Char} {t lower : Text}, lowerForm c = [c.toLower] → IsLowerCase t lower →
      IsLowerCase (c :: t) (c.toLower :: lower) :=
    fun hform ht => @IsLowerCase.cons _ [_] _ _ (.inl hform.symm) ht
  have hsigma : IsLowerForm '\u03a3' ['\u03c2'] :=
    .inr ⟨List.cons_ne_nil _ _, by decide, by decide⟩
  have h : IsLowerCase ['S', 'i', 'N', 'H', '\u03a3'] ['s', 'i', 'n', 'h', '\u03c2'] :=
    hletter rfl (hletter rfl (hletter rfl (hletter rfl (.cons hsigma .nil))))
  obtain ⟨-, -, -, -, hspells, -, -, horder, -⟩ := find_longestNames h
  have hordered : LongerFirst (· <+: ·) ((unaryFunctions.rotate 15).map (·.name.toList)) := by
    unfold LongerFirst
    decide
  exact ⟨h, _, rfl, rfl, hspells _ rfl, horder _ (List.rotate_perm _ _) hordered⟩

end Reckoner

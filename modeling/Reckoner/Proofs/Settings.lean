import Reckoner.Settings
import Mathlib.Data.Nat.Digits.Defs
import Mathlib.Data.List.DropRight
import Mathlib.Data.List.Forall2

/-!
# What is read from a setting

A setting is read from its text without the blanks around it and without underscores.
Where that is a number of decimal digits the setting has its value, and else the
default; the one text that ends the reading is one that looks like a number in every
character and is not read as one. Main statement: `readPositive_outcome`, which says of
every text how the reading of it ends.
-/

namespace Reckoner

/-! ## What digits denote -/

/-- What a setting is read from. -/
def settingDigits (raw : Text) : Text := raw.strip.filter (· != '_')

/-- A text of decimal digits denotes a number, its last digit counting ones. -/
def Denotes (t : Text) (n : Nat) : Prop :=
  ∃ values, t ≠ [] ∧ List.Forall₂ (fun c d => digitValue? c = some d) t values ∧
    n = Nat.ofDigits 10 values.reverse

/-- A text that is taken to be a number, and in which a character is no decimal digit or
there are too many of them. -/
def Misread (t : Text) : Prop :=
  (∀ c ∈ t, isDigitLike c = true) ∧
    ((∃ c ∈ t, isDecimalDigit c = false) ∨ mostDigits < t.length)

theorem isDigitLike_of_isDecimalDigit {c : Char} (h : isDecimalDigit c = true) :
    isDigitLike c = true := by
  rw [isDigitLike, h, Bool.true_or]

/-- The value so far counts ten for each one of the value after one digit more. -/
theorem foldl_digitValues {t : Text} {values : List Nat}
    (h : List.Forall₂ (fun c d => digitValue? c = some d) t values) (n : Nat) :
    t.foldl (fun n c => 10 * n + (digitValue? c).getD 0) n =
      n * 10 ^ values.length + Nat.ofDigits 10 values.reverse := by
  induction h generalizing n with
  | nil => simp
  | @cons c d t values hc _ ih =>
    rw [List.foldl_cons, ih, hc, Option.getD_some, List.reverse_cons, Nat.ofDigits_append,
      Nat.ofDigits_singleton, List.length_reverse, List.length_cons, pow_succ]
    ring

theorem Denotes.digitsValue_eq {t : Text} {n : Nat} (h : Denotes t n) : digitsValue t = n := by
  obtain ⟨values, -, hvalues, rfl⟩ := h
  rw [digitsValue, foldl_digitValues hvalues, Nat.zero_mul, Nat.zero_add]

theorem Denotes.isDecimalDigit {t : Text} {n : Nat} (h : Denotes t n) :
    ∀ c ∈ t, isDecimalDigit c = true := by
  obtain ⟨values, -, hvalues, -⟩ := h
  induction hvalues with
  | nil => exact fun c hc => absurd hc List.not_mem_nil
  | @cons c d t values hc _ ih =>
    refine List.forall_mem_cons.2 ⟨?_, ih⟩
    rw [Reckoner.isDecimalDigit, hc, Option.isSome_some]

/-- A text of decimal digits denotes what is read from it. -/
theorem denotes_digitsValue {t : Text} (hne : t ≠ [])
    (h : ∀ c ∈ t, isDecimalDigit c = true) : Denotes t (digitsValue t) := by
  have hvalues : List.Forall₂ (fun c d => digitValue? c = some d) t
      (t.map fun c => (digitValue? c).getD 0) := by
    refine List.forall₂_map_right_iff.2 (List.forall₂_same.2 fun c hc => ?_)
    obtain ⟨d, hd⟩ := Option.isSome_iff_exists.1 (h c hc)
    rw [hd, Option.getD_some]
  refine ⟨_, hne, hvalues, ?_⟩
  rw [digitsValue, foldl_digitValues hvalues, Nat.zero_mul, Nat.zero_add]

/-! ## The steps of a reading -/

theorem strip_eq_nil_iff {t : Text} : t.strip = [] ↔ ∀ c ∈ t, isBlank c = true := by
  change (t.dropWhile isBlank).rdropWhile isBlank = [] ↔ _
  rw [List.rdropWhile_eq_nil_iff]
  constructor
  · intro h c hc
    rw [← List.takeWhile_append_dropWhile (p := isBlank) (l := t), List.mem_append] at hc
    exact hc.elim List.mem_takeWhile_imp (h c)
  · exact fun h c hc => h c ((List.dropWhile_suffix isBlank).subset hc)

theorem readDigits_of_denotes {t : Text} {n : Nat} (h : Denotes t n)
    (hlength : t.length ≤ mostDigits) : readDigits t = .ok n := by
  have hrun : (t.takeWhile isDecimalDigit).length ≤ mostDigits :=
    (List.takeWhile_prefix _).length_le.trans hlength
  rw [readDigits, if_neg (Nat.not_lt.2 hrun), if_pos (List.all_eq_true.2 h.isDecimalDigit),
    h.digitsValue_eq]

theorem readDigits_of_misread {t : Text} (h : Misread t) :
    ∃ fault, readDigits t = .error fault := by
  unfold readDigits
  by_cases hrun : mostDigits < (t.takeWhile isDecimalDigit).length
  · exact ⟨_, if_pos hrun⟩
  · rw [if_neg hrun]
    have hall : t.all isDecimalDigit = false := by
      rw [List.all_eq_false]
      obtain ⟨c, hc, hdigit⟩ | hlong := h.2
      · exact ⟨c, hc, by rw [hdigit]; exact Bool.false_ne_true⟩
      · by_contra hno
        have hdigits : ∀ c ∈ t, isDecimalDigit c = true := by simpa using hno
        rw [List.takeWhile_eq_self_iff.2 hdigits] at hrun
        exact hrun hlong
    exact ⟨_, by rw [hall]; rfl⟩

section Reading

variable {name : String} {text : Text} {default : Int}

theorem readPositive_of_blank (h : ∀ c ∈ text, isBlank c = true) :
    readPositive name (some text) default = .ok { value := default } := by
  rw [readPositive, strip_eq_nil_iff.2 h]
  rfl

theorem readPositive_of_not_blank (h : ¬∀ c ∈ text, isBlank c = true) :
    readPositive name (some text) default =
      if (settingDigits text).isEmpty || !(settingDigits text).all isDigitLike then
        .ok (ignoring name default (settingDigits text))
      else match readDigits (settingDigits text) with
        | .error fault => .error fault
        | .ok n => .ok (if n < 1 then ignoring name default (settingDigits text)
            else { value := n }) := by
  have hstrip : text.strip.isEmpty = false := by
    rw [List.isEmpty_eq_false_iff]
    exact fun hnil => h (strip_eq_nil_iff.1 hnil)
  rw [readPositive]
  simp only [hstrip, Bool.false_eq_true, if_false]
  rfl

/-- What does not look like a number is ignored. -/
theorem readPositive_of_unlike (h : ¬∀ c ∈ text, isBlank c = true)
    (hunlike : settingDigits text = [] ∨ ∃ c ∈ settingDigits text, isDigitLike c = false) :
    readPositive name (some text) default =
      .ok (ignoring name default (settingDigits text)) := by
  rw [readPositive_of_not_blank h, if_pos]
  obtain hnil | hunlike := hunlike
  · rw [hnil]
    rfl
  · have hall : (settingDigits text).all isDigitLike = false := by
      rw [List.all_eq_false]
      obtain ⟨c, hc, hlike⟩ := hunlike
      exact ⟨c, hc, by rw [hlike]; exact Bool.false_ne_true⟩
    rw [hall, Bool.not_false, Bool.or_true]

/-- A text that denotes a number is read as that number, and ignored where it is zero. -/
theorem readPositive_of_denotes {n : Nat} (h : ¬∀ c ∈ text, isBlank c = true)
    (hdenotes : Denotes (settingDigits text) n)
    (hlength : (settingDigits text).length ≤ mostDigits) :
    readPositive name (some text) default =
      .ok (if n < 1 then ignoring name default (settingDigits text) else { value := n }) := by
  have hempty : (settingDigits text).isEmpty = false := by
    obtain ⟨_, hne, -⟩ := hdenotes
    exact List.isEmpty_eq_false_iff.2 hne
  have hall : (settingDigits text).all isDigitLike = true :=
    List.all_eq_true.2 fun c hc => isDigitLike_of_isDecimalDigit (hdenotes.isDecimalDigit c hc)
  rw [readPositive_of_not_blank h, hempty, hall, readDigits_of_denotes hdenotes hlength]
  rfl

end Reading

/-! ## The outcome -/

namespace Settings

/-- A setting is blank that is not set, or has nothing but blanks. -/
def Blank (raw : Option Text) : Prop := ∀ text, raw = some text → ∀ c ∈ text, isBlank c = true

/-- A setting gives a number of one or more. -/
def Gives (raw : Option Text) (n : Nat) : Prop :=
  ∃ text, raw = some text ∧ Denotes (settingDigits text) n ∧ 1 ≤ n

/-- A setting is misread that looks like a number and cannot be read as one. -/
def IsMisread (raw : Option Text) : Prop := ∃ text, raw = some text ∧ Misread (settingDigits text)

/-- What a setting with the default `usual` is read as. -/
structure ReadAs (name : String) (raw : Option Text) (usual : Int) (read : Noticed Int) :
    Prop where
  pos : 0 < read.value
  given : ∀ n : Nat, Gives raw n → read.value = n
  otherwise : (∀ n, ¬Gives raw n) → read.value = usual
  silent : Blank raw ∨ (∃ n, Gives raw n) → read.notices = []
  warned : ∀ text, raw = some text → ¬Blank raw → (∀ n, ¬Gives raw n) →
    read.notices = [{
      severity := .warning
      message := s!"Ignoring invalid value {(settingDigits text).quoted} for {name}; using {usual}." }]

end Settings

open Settings

theorem Denotes.unique {t : Text} {m n : Nat} (hm : Denotes t m) (hn : Denotes t n) : m = n := by
  rw [← hm.digitsValue_eq, hn.digitsValue_eq]

/-- A blank text has no digits left. -/
theorem settingDigits_of_blank {text : Text} (h : ∀ c ∈ text, isBlank c = true) :
    settingDigits text = [] := by
  rw [settingDigits, strip_eq_nil_iff.2 h]
  rfl

theorem not_gives_of_blank {raw : Option Text} (h : Blank raw) (n : Nat) : ¬Gives raw n := by
  rintro ⟨text, rfl, ⟨_, hne, -⟩, -⟩
  exact hne (settingDigits_of_blank (h text rfl))

section

variable {name : String} {text : Text} {default : Int}

/-- A setting that is ignored is read as its default, with the warning. -/
theorem readAs_ignoring (hdefault : 0 < default) (hblank : ¬Blank (some text))
    (hgives : ∀ n, ¬Gives (some text) n) :
    ReadAs name (some text) default (ignoring name default (settingDigits text)) where
  pos := hdefault
  given n h := absurd h (hgives n)
  otherwise _ := rfl
  silent h := h.elim (fun h => absurd h hblank) fun ⟨n, h⟩ => absurd h (hgives n)
  warned other h _ _ := by
    cases h
    rfl

theorem readAs_default {raw : Option Text} (hdefault : 0 < default) (hblank : Blank raw) :
    ReadAs name raw default { value := default } where
  pos := hdefault
  given n h := absurd h (not_gives_of_blank hblank n)
  otherwise _ := rfl
  silent _ := rfl
  warned _ _ h := absurd hblank h

theorem readAs_of_gives {raw : Option Text} {n : Nat} (h : Gives raw n) :
    ReadAs name raw default { value := n } where
  pos := by
    obtain ⟨_, -, -, hpos⟩ := h
    exact Int.natCast_pos.2 hpos
  given m hm := by
    obtain ⟨text, rfl, hn, -⟩ := h
    obtain ⟨_, ⟨⟩, hm, -⟩ := hm
    rw [hn.unique hm]
  otherwise hnone := absurd h (hnone n)
  silent _ := rfl
  warned _ _ _ hnone := absurd h (hnone n)

end

theorem isMisread_some_iff {text : Text} :
    IsMisread (some text) ↔ Misread (settingDigits text) :=
  ⟨fun ⟨_, htext, h⟩ => Option.some.inj htext ▸ h, fun h => ⟨text, rfl, h⟩⟩

theorem readPositive_of_isMisread {name : String} {raw : Option Text} {default : Int}
    (h : IsMisread raw) : ∃ fault, readPositive name raw default = .error fault := by
  obtain ⟨text, rfl, hmisread⟩ := h
  have hne : settingDigits text ≠ [] := by
    rintro hnil
    rw [hnil] at hmisread
    obtain ⟨c, hc, -⟩ | hlong := hmisread.2
    · exact List.not_mem_nil hc
    · exact Nat.not_lt_zero _ hlong
  have hblank : ¬∀ c ∈ text, isBlank c = true := fun hblank => hne (settingDigits_of_blank hblank)
  obtain ⟨fault, hfault⟩ := readDigits_of_misread hmisread
  refine ⟨fault, ?_⟩
  rw [readPositive_of_not_blank hblank, hfault, List.isEmpty_eq_false_iff.2 hne,
    List.all_eq_true.2 hmisread.1]
  rfl

/-- Digits that are not misread are decimal, and not too many. -/
theorem denotes_of_not_misread {t : Text} (hne : t ≠ []) (hlike : ∀ c ∈ t, isDigitLike c = true)
    (h : ¬Misread t) : Denotes t (digitsValue t) ∧ t.length ≤ mostDigits := by
  refine ⟨denotes_digitsValue hne fun c hc => ?_, ?_⟩
  · by_contra hdigit
    exact h ⟨hlike, .inl ⟨c, hc, Bool.eq_false_iff.2 hdigit⟩⟩
  · by_contra hlong
    exact h ⟨hlike, .inr (Nat.not_le.1 hlong)⟩

theorem readPositive_of_not_isMisread (name : String) {raw : Option Text} {default : Int}
    (hdefault : 0 < default) (h : ¬IsMisread raw) :
    ∃ read, readPositive name raw default = .ok read ∧ ReadAs name raw default read := by
  by_cases hblank : Blank raw
  · refine ⟨_, ?_, readAs_default hdefault hblank⟩
    cases raw with
    | none => rfl
    | some text => exact readPositive_of_blank (hblank text rfl)
  obtain _ | text := raw
  · exact absurd (fun _ htext => nomatch htext) hblank
  have hsome : ¬∀ c ∈ text, isBlank c = true :=
    fun hall => hblank fun _ htext => Option.some.inj htext ▸ hall
  by_cases hunlike : settingDigits text = [] ∨ ∃ c ∈ settingDigits text, isDigitLike c = false
  · refine ⟨_, readPositive_of_unlike hsome hunlike, readAs_ignoring hdefault hblank ?_⟩
    rintro n ⟨_, ⟨⟩, hdenotes, -⟩
    obtain hnil | ⟨c, hc, hlike⟩ := hunlike
    · obtain ⟨_, hne, -⟩ := hdenotes
      exact hne hnil
    · rw [isDigitLike_of_isDecimalDigit (hdenotes.isDecimalDigit c hc)] at hlike
      contradiction
  · obtain ⟨hne, hlike⟩ := not_or.1 hunlike
    obtain ⟨hdenotes, hlength⟩ := denotes_of_not_misread hne
      (fun c hc => Bool.of_not_eq_false fun hfalse => hlike ⟨c, hc, hfalse⟩)
      (mt isMisread_some_iff.2 h)
    refine ⟨_, readPositive_of_denotes hsome hdenotes hlength, ?_⟩
    -- zero is read as a number and is then no usable one
    by_cases hzero : digitsValue (settingDigits text) < 1
    · rw [if_pos hzero]
      refine readAs_ignoring hdefault hblank ?_
      rintro n ⟨_, ⟨⟩, hn, hpos⟩
      rw [hdenotes.unique hn] at hzero
      exact Nat.not_lt.2 hpos hzero
    · rw [if_neg hzero]
      exact readAs_of_gives ⟨text, rfl, hdenotes, Nat.not_lt.1 hzero⟩

/-- **A setting has its number, or the default, or is misread.** The reading of a setting
with a positive default ends with a fault exactly if what is left of its text looks like a
digit in every character and is no readable number. In all other cases it comes to a positive
number: the one that the text denotes in decimal digits, and the default where it denotes none
of one or more. There is exactly one warning if the setting is neither blank nor usable, and
none otherwise. -/
theorem readPositive_outcome (name : String) (raw : Option Text) {default : Int}
    (hdefault : 0 < default) :
    ((∃ fault, readPositive name raw default = .error fault) ↔ IsMisread raw) ∧
      (¬IsMisread raw →
        ∃ read, readPositive name raw default = .ok read ∧ ReadAs name raw default read) := by
  refine ⟨⟨fun ⟨fault, hfault⟩ => ?_, readPositive_of_isMisread⟩,
    readPositive_of_not_isMisread name hdefault⟩
  by_contra h
  obtain ⟨read, hread, -⟩ := readPositive_of_not_isMisread name hdefault h
  rw [hfault] at hread
  contradiction

/-- Seven in Arabic digits, with an underscore and a blank. -/
theorem readPositive_outcome_arabic :
    (0 : Int) < 5 ∧
      ReadAs "CALC_MAX_DICE" (some ['_', '٠', '٧', ' ']) 5 { value := 7 } := by
  have hdefault : (0 : Int) < 5 := by decide
  have houtcome := readPositive_outcome "CALC_MAX_DICE" (some ['_', '٠', '٧', ' ']) hdefault
  have hread : readPositive "CALC_MAX_DICE" (some ['_', '٠', '٧', ' ']) 5 = .ok { value := 7 } := rfl
  have hmisread : ¬IsMisread (some ['_', '٠', '٧', ' ']) := by
    rw [← houtcome.1, hread]
    rintro ⟨_, ⟨⟩⟩
  obtain ⟨read, h, hreadAs⟩ := houtcome.2 hmisread
  cases hread.symm.trans h
  exact ⟨hdefault, hreadAs⟩

/-- A raised two looks like a digit and ends the reading. -/
theorem readPositive_raised_two :
    readPositive "CALC_TEST_VALUE" (some ['²']) 7 = .error (.notDecimal ['²']) := rfl

/-! ## All settings -/

/-- Limits of one or more. -/
structure Limits.Positive (limits : Limits) : Prop where
  maxDice : 0 < limits.maxDice
  rollLineLength : 0 < limits.rollLineLength
  shownDice : 0 < limits.shownDice
  maxDepth : 0 < limits.maxDepth
  maxLength : 0 < limits.maxLength

/-- The variables that the limits are read from. -/
def Settings.limitNames : List String :=
  ["CALC_MAX_DICE", "CALC_ROLL_TRACE_CHARS", "CALC_ROLL_TRACE_DICE", "CALC_MAX_DEPTH",
   "CALC_MAX_LENGTH"]

/-- The settings are read, with positive limits, where none of the limits is misread. -/
theorem Settings.read_of_not_isMisread {lookup : String → Option Text}
    (h : ∀ name ∈ limitNames, ¬IsMisread (lookup name)) :
    ∃ settings, read lookup = .ok settings ∧ settings.value.limits.Positive := by
  simp only [limitNames, List.forall_mem_cons, List.not_mem_nil, false_imp_iff, implies_true,
    and_true] at h
  obtain ⟨hdice, hchars, hshown, hdepth, hlength⟩ := h
  obtain ⟨dice, hdice, hdicePos⟩ := readPositive_of_not_isMisread "CALC_MAX_DICE"
    (by decide : 0 < ({} : Limits).maxDice) hdice
  obtain ⟨chars, hchars, hcharsPos⟩ := readPositive_of_not_isMisread "CALC_ROLL_TRACE_CHARS"
    (by decide : 0 < ({} : Limits).rollLineLength) hchars
  obtain ⟨shown, hshown, hshownPos⟩ := readPositive_of_not_isMisread "CALC_ROLL_TRACE_DICE"
    (by decide : 0 < ({} : Limits).shownDice) hshown
  obtain ⟨depth, hdepth, hdepthPos⟩ := readPositive_of_not_isMisread "CALC_MAX_DEPTH"
    (by decide : 0 < ({} : Limits).maxDepth) hdepth
  obtain ⟨length, hlength, hlengthPos⟩ := readPositive_of_not_isMisread "CALC_MAX_LENGTH"
    (by decide : 0 < ({} : Limits).maxLength) hlength
  refine ⟨_, by simp only [read, hdice, hchars, hshown, hdepth, hlength]; rfl, ?_⟩
  exact ⟨hdicePos.pos, hcharsPos.pos, hshownPos.pos, hdepthPos.pos, hlengthPos.pos⟩

end Reckoner

import Reckoner.Number.Numeral
import Mathlib.Tactic.Ring

/-!
# Spelling numerals

A numeral is regular if a scan could have produced it. Scanning a regular numeral that is
followed by something that cannot continue it gives back the numeral and what follows.
-/

namespace Reckoner

/-! ## Digits -/

theorem digitValue?_of_isDigit {c : Char} (h : c.isDigit = true) :
    digitValue? c = some (c.toNat - '0'.toNat) := by
  obtain ⟨hl, hr⟩ := Char.isDigit_iff_toNat.mp h
  change 48 ≤ c.toNat at hl
  change c.toNat ≤ 57 at hr
  have hrow : (48 ≤ c.toNat && c.toNat < 48 + 10) = true := by
    simp only [Bool.and_eq_true, decide_eq_true_eq]
    omega
  have hfind : (48 :: digitRows.tail).find? (fun row => row ≤ c.toNat && c.toNat < row + 10) =
      some 48 := List.find?_cons_of_pos hrow
  change ((48 :: digitRows.tail).find? _).map _ = _
  rw [hfind]
  rfl

theorem isDecimalDigit_of_isDigit {c : Char} (h : c.isDigit = true) : isDecimalDigit c = true := by
  rw [isDecimalDigit, digitValue?_of_isDigit h]
  rfl

theorem exists_row_of_isDecimalDigit {c : Char} (h : isDecimalDigit c = true) :
    ∃ row ∈ digitRows, row ≤ c.toNat ∧ c.toNat < row + 10 := by
  rw [isDecimalDigit, digitValue?, Option.isSome_map, List.find?_isSome] at h
  obtain ⟨row, hrow, hc⟩ := h
  rw [Bool.and_eq_true, decide_eq_true_eq, decide_eq_true_eq] at hc
  exact ⟨row, hrow, hc⟩

theorem isDigitLike_cases {c : Char} (h : isDigitLike c = true) :
    isDecimalDigit c = true ∨
      ∃ range ∈ digitLikeRanges, range.1 ≤ c.toNat ∧ c.toNat ≤ range.2 := by
  rw [isDigitLike, Bool.or_eq_true, List.any_eq_true] at h
  simpa using h

theorem isBlank_of_isDecimalDigit {c : Char} (h : isDecimalDigit c = true) : isBlank c = false := by
  obtain ⟨row, hrow, hlow, hhigh⟩ := exists_row_of_isDecimalDigit h
  have hall : ∀ row ∈ digitRows, 33 ≤ row ∧ (0xa0 < row ∨ row + 10 ≤ 0x85) ∧
      (0x1680 < row ∨ row + 10 ≤ 0x1680) ∧ (0x3000 < row ∨ row + 10 ≤ 0x2000) := by decide
  have := hall row hrow
  simp [isBlank]
  omega

theorem foldl_digits {t : Text} (h : ∀ c ∈ t, c.isDigit = true) (start : Nat) :
    t.foldl (fun n c => 10 * n + (digitValue? c).getD 0) start = Nat.ofDigitChars 10 t start := by
  induction t generalizing start with
  | nil => rfl
  | cons c t ih =>
    rw [List.foldl_cons, Nat.ofDigitChars_cons, digitValue?_of_isDigit (h c List.mem_cons_self),
      Option.getD_some]
    exact ih (fun d hd => h d (List.mem_cons_of_mem c hd)) _

theorem digitsValue_eq {t : Text} (h : ∀ c ∈ t, c.isDigit = true) :
    digitsValue t = Nat.ofDigitChars 10 t 0 :=
  foldl_digits h 0

theorem isDigit_natText {n : Nat} : ∀ c ∈ natText n, c.isDigit = true :=
  fun _ hc => Nat.isDigit_of_mem_toDigits (by decide) (by decide) hc

theorem isDigit_zeros {n : Nat} : ∀ c ∈ zeros n, c.isDigit = true := by
  intro c hc
  rw [List.eq_of_mem_replicate hc]
  rfl

theorem digitsValue_natText (n : Nat) : digitsValue (natText n) = n := by
  rw [digitsValue_eq isDigit_natText]
  exact Nat.ofDigitChars_ten_toDigits

theorem digitsValue_append_zeros {t : Text} (h : ∀ c ∈ t, c.isDigit = true) (n : Nat) :
    digitsValue (t ++ zeros n) = digitsValue t * 10 ^ n := by
  have hall : ∀ c ∈ t ++ zeros n, c.isDigit = true := by
    intro c hc
    rcases List.mem_append.mp hc with hc | hc
    · exact h c hc
    · exact isDigit_zeros c hc
  rw [digitsValue_eq hall, digitsValue_eq h, Nat.ofDigitChars_append, zeros,
    Nat.ofDigitChars_replicate_zero, Nat.mul_comm]

theorem digitsValue_zeros_append (n : Nat) (t : Text) :
    digitsValue (zeros n ++ t) = digitsValue t := by
  have hzeros : digitsValue (zeros n) = 0 := by
    rw [digitsValue_eq isDigit_zeros, zeros, Nat.ofDigitChars_replicate_zero, Nat.mul_zero]
  rw [digitsValue, List.foldl_append]
  change t.foldl _ (digitsValue (zeros n)) = _
  rw [hzeros]
  rfl

/-! ## Regular numerals -/

/-- What an exponent has after its mark: a sign, or none, and digits. -/
def IsExponent (t : Text) : Prop :=
  ∃ sign digits, t = sign ++ digits ∧ (sign = [] ∨ sign = ['+'] ∨ sign = ['-']) ∧
    digits ≠ [] ∧ ∀ c ∈ digits, isDecimalDigit c = true

/-- A numeral whose parts are what their names say; its exponent mark is `E`. -/
structure Numeral.Regular (n : Numeral) : Prop where
  whole : ∀ c ∈ n.whole, isDecimalDigit c = true
  fraction : n.fraction = [] ∨
    ∃ places, n.fraction = '.' :: places ∧ ∀ c ∈ places, isDecimalDigit c = true
  nonempty : n.whole ≠ [] ∨ 1 < n.fraction.length
  exponent : n.exponent = [] ∨ ∃ rest, n.exponent = 'E' :: rest ∧ IsExponent rest

theorem Numeral.regular_digit {c : Char} (hc : isDecimalDigit c = true) :
    (Numeral.mk [c] [] []).Regular where
  whole d hd := by rwa [List.mem_singleton.mp hd]
  fraction := .inl rfl
  nonempty := .inl (List.cons_ne_nil c [])
  exponent := .inl rfl

theorem IsExponent.char {t : Text} (h : IsExponent t) :
    ∀ c ∈ t, isDecimalDigit c = true ∨ c = '+' ∨ c = '-' := by
  obtain ⟨sign, digits, rfl, hsign, -, hdigits⟩ := h
  intro c hc
  rcases List.mem_append.mp hc with hc | hc
  · rcases hsign with rfl | rfl | rfl
    · cases hc
    · exact .inr (.inl (List.mem_singleton.mp hc))
    · exact .inr (.inr (List.mem_singleton.mp hc))
  · exact .inl (hdigits c hc)

/-- What a numeral has before its exponent. -/
theorem Numeral.Regular.significand_char {n : Numeral} (hn : n.Regular) :
    ∀ c ∈ n.whole ++ n.fraction, isDecimalDigit c = true ∨ c = '.' := by
  intro c hc
  rcases List.mem_append.mp hc with hc | hc
  · exact .inl (hn.whole c hc)
  · rcases hn.fraction with hf | ⟨places, hf, hplaces⟩
    · rw [hf] at hc
      cases hc
    · rw [hf] at hc
      rcases List.mem_cons.mp hc with rfl | hc
      · exact .inr rfl
      · exact .inl (hplaces c hc)

/-- A text that cannot continue a numeral before it. -/
def Detached (isMark : Char → Bool) (t : Text) : Prop :=
  ∀ c, t.head? = some c → isDecimalDigit c = false ∧ c ≠ '.' ∧ isMark c = false

theorem detached_nil (isMark : Char → Bool) : Detached isMark [] := by
  intro c hc
  cases hc

theorem takeWhile_append_of_all {p : Char → Bool} {xs ys : Text} (hx : ∀ c ∈ xs, p c = true)
    (hy : ∀ c, ys.head? = some c → p c = false) : (xs ++ ys).takeWhile p = xs := by
  rw [List.takeWhile_append_of_pos hx]
  cases ys with
  | nil => simp
  | cons c ys => simp [hy c rfl]

theorem dropWhile_append_of_all {p : Char → Bool} {xs ys : Text} (hx : ∀ c ∈ xs, p c = true)
    (hy : ∀ c, ys.head? = some c → p c = false) : (xs ++ ys).dropWhile p = ys := by
  rw [List.dropWhile_append_of_pos hx]
  cases ys with
  | nil => simp
  | cons c ys => simp [hy c rfl]

theorem takeSign_of_isExponent {sign digits tail : Text}
    (hs : sign = [] ∨ sign = ['+'] ∨ sign = ['-']) (hne : digits ≠ [])
    (hd : ∀ c ∈ digits, isDecimalDigit c = true) :
    Numeral.takeSign (sign ++ digits ++ tail) = (sign, digits ++ tail) := by
  rcases hs with rfl | rfl | rfl
  · cases digits with
    | nil => exact absurd rfl hne
    | cons d digits =>
      have hdigit := hd d List.mem_cons_self
      unfold Numeral.takeSign
      split
      · next h =>
        cases h
        exact absurd hdigit (by decide)
      · next h =>
        cases h
        exact absurd hdigit (by decide)
      · rfl
  · rfl
  · rfl

theorem scanExponent_nil {isMark : Char → Bool} {tail : Text}
    (ht : ∀ c, tail.head? = some c → isMark c = false) :
    Numeral.scanExponent isMark tail = ([], tail) := by
  cases tail with
  | nil => rfl
  | cons c tail => simp [Numeral.scanExponent, ht c rfl]

theorem scanExponent_append_of_isExponent {isMark : Char → Bool} {mark : Char}
    (hmark : isMark mark = true) {rest tail : Text} (hr : IsExponent rest)
    (ht : ∀ c, tail.head? = some c → isDecimalDigit c = false) :
    Numeral.scanExponent isMark (mark :: rest ++ tail) = (mark :: rest, tail) := by
  obtain ⟨sign, digits, rfl, hs, hne, hd⟩ := hr
  rw [List.cons_append, Numeral.scanExponent, takeSign_of_isExponent hs hne hd]
  dsimp only
  rw [takeWhile_append_of_all hd ht, dropWhile_append_of_all hd ht, hmark]
  simp [hne]

theorem scanSignificand_append_of_regular {n : Numeral} (hn : n.Regular) {tail : Text}
    (ht : ∀ c, tail.head? = some c →
      isDecimalDigit c = false ∧ (n.fraction = [] → c ≠ '.')) :
    Numeral.scanSignificand (n.whole ++ n.fraction ++ tail) = some (n.whole, n.fraction, tail) := by
  have hdigit : ∀ c, tail.head? = some c → isDecimalDigit c = false := fun c hc => (ht c hc).1
  unfold Numeral.scanSignificand
  rcases hn.fraction with hf | ⟨places, hf, hp⟩
  · have hwhole : n.whole ≠ [] := by simpa [hf] using hn.nonempty
    rw [hf, List.append_nil, takeWhile_append_of_all hn.whole hdigit,
      dropWhile_append_of_all hn.whole hdigit]
    dsimp only
    split
    · next rest =>
      exact absurd rfl ((ht '.' rfl).2 hf)
    · simp [hwhole]
  · have hpoint : ∀ c, ('.' :: places ++ tail).head? = some c → isDecimalDigit c = false := by
      intro c hc
      cases hc
      decide
    rw [hf, List.append_assoc, takeWhile_append_of_all hn.whole hpoint,
      dropWhile_append_of_all hn.whole hpoint]
    change (if n.whole.isEmpty && ((places ++ tail).takeWhile isDecimalDigit).isEmpty then none
      else some (n.whole, '.' :: (places ++ tail).takeWhile isDecimalDigit,
        (places ++ tail).dropWhile isDecimalDigit)) = _
    rw [takeWhile_append_of_all hp hdigit, dropWhile_append_of_all hp hdigit]
    have hsome : ¬(n.whole.isEmpty && places.isEmpty) = true := by
      have := hn.nonempty
      rw [hf] at this
      cases hw : n.whole <;> cases places <;> simp_all
    rw [if_neg hsome]

/-- A regular numeral is scanned as far as it goes. -/
theorem scan_append_of_regular {isMark : Char → Bool} (hE : isMark 'E' = true) {n : Numeral}
    (hn : n.Regular) {tail : Text} (ht : Detached isMark tail) :
    Numeral.scan isMark (n.text ++ tail) = some (n, tail) := by
  have hdigit : ∀ c, tail.head? = some c → isDecimalDigit c = false := fun c hc => (ht c hc).1
  unfold Numeral.scan Numeral.text
  rcases hn.exponent with he | ⟨rest, he, hr⟩
  · rw [he, List.append_nil, scanSignificand_append_of_regular hn fun c hc =>
      ⟨(ht c hc).1, fun _ => (ht c hc).2.1⟩, Option.map_some]
    dsimp only
    rw [scanExponent_nil fun c hc => (ht c hc).2.2]
    cases n
    simp_all
  · have hmark : ∀ c, (n.exponent ++ tail).head? = some c → isDecimalDigit c = false ∧ c ≠ '.' := by
      intro c hc
      rw [he] at hc
      cases hc
      decide
    rw [List.append_assoc, scanSignificand_append_of_regular hn fun c hc =>
      ⟨(hmark c hc).1, fun _ => (hmark c hc).2⟩, Option.map_some, he]
    dsimp only
    rw [scanExponent_append_of_isExponent hE hr hdigit]
    cases n
    simp_all

theorem ofText?_of_regular {n : Numeral} (hn : n.Regular) : Numeral.ofText? n.text = some n := by
  have hscan : Numeral.scan (fun c => c == 'e' || c == 'E') (n.text ++ []) = some (n, []) :=
    scan_append_of_regular rfl hn (detached_nil _)
  rw [List.append_nil] at hscan
  rw [Numeral.ofText?, hscan]

end Reckoner

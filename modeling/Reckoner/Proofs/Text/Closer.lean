import Reckoner.Text.Position
import Mathlib.Order.Bounds.Basic
import Mathlib.Tactic.ByContra
import Mathlib.Tactic.SplitIfs

/-!
# The closer of a square bracket

The search for a closer counts square brackets and stops where the count is back at zero. Counting
one character at a time, that is the first character after which there have been as many closers
as openers (`closingBracketFrom_cases`). A position may be counted from either end of the text;
told by positions, the closer is the least one behind the bracket up to which the brackets are
even (`closingBracketAt_cases`).
-/

namespace Reckoner

/-! ## Counting from a bracket on -/

/-- The square brackets of a text, openers less closers. -/
def squareDepth (t : Text) : Int := (t.count '[' : Int) - t.count ']'

theorem squareDepth_cons (c : Char) (t : Text) :
    squareDepth (c :: t) = squareDepth [c] + squareDepth t := by
  simp only [squareDepth, List.count_cons, List.count_nil]
  push_cast
  omega

theorem squareDepth_opener : squareDepth ['['] = 1 := rfl

theorem squareDepth_closer : squareDepth [']'] = -1 := rfl

theorem squareDepth_other {c : Char} (hopen : c ≠ '[') (hclose : c ≠ ']') :
    squareDepth [c] = 0 := by simp [squareDepth, hopen, hclose]

theorem neg_one_le_squareDepth (c : Char) : -1 ≤ squareDepth [c] := by
  have hclosers := List.count_le_length (a := ']') (l := [c])
  rw [List.length_singleton] at hclosers
  rw [squareDepth]
  omega

/-- Counting from a depth on, the brackets are even after the character at this position. -/
def EvenAfter (depth : Int) (t : Text) (n : Nat) : Prop :=
  n < t.length ∧ depth + squareDepth (t.take (n + 1)) = 0

theorem evenAfter_zero {depth : Int} {c : Char} {t : Text} :
    EvenAfter depth (c :: t) 0 ↔ depth + squareDepth [c] = 0 := by simp [EvenAfter]

theorem evenAfter_succ {depth : Int} {c : Char} {t : Text} {n : Nat} :
    EvenAfter depth (c :: t) (n + 1) ↔ EvenAfter (depth + squareDepth [c]) t n := by
  rw [EvenAfter, EvenAfter, List.take_succ_cons, squareDepth_cons, List.length_cons,
    Nat.succ_lt_succ_iff, Int.add_assoc]

/-- The search goes on as long as the count is not back at zero. -/
theorem closingBracketFrom_cons {depth : Int} (hd : 0 < depth) (index : Nat) (c : Char)
    (t : Text) :
    closingBracketFrom index depth (c :: t) =
      if depth + squareDepth [c] = 0 then some index
      else closingBracketFrom (index + 1) (depth + squareDepth [c]) t := by
  rw [closingBracketFrom]
  by_cases hopen : c = '['
  · subst hopen
    rw [squareDepth_opener, if_pos (beq_self_eq_true _), if_neg (by omega)]
  · rw [if_neg (by simpa using hopen)]
    by_cases hclose : c = ']'
    · subst hclose
      rw [squareDepth_closer, if_pos (beq_self_eq_true _)]
      by_cases hlast : depth = 1
      · rw [if_pos (by simpa using hlast), if_pos (by omega)]
      · rw [if_neg (by simpa using hlast), if_neg (by omega)]
        rfl
    · rw [squareDepth_other hopen hclose, if_neg (by simpa using hclose), if_neg (by omega),
        Int.add_zero]

/-- **The closer is the first character after which the brackets are even.** -/
theorem closingBracketFrom_cases {depth : Int} (hd : 0 < depth) (index : Nat) (t : Text) :
    (∃ n, closingBracketFrom index depth t = some (index + n) ∧
        IsLeast {m | EvenAfter depth t m} n) ∨
      closingBracketFrom index depth t = none ∧ ∀ n, ¬EvenAfter depth t n := by
  induction t generalizing index depth with
  | nil => exact .inr ⟨rfl, fun n h => Nat.not_lt_zero n h.1⟩
  | cons c t ih =>
    rw [closingBracketFrom_cons hd]
    split_ifs with hc
    · exact .inl ⟨0, rfl, evenAfter_zero.mpr hc, fun _ _ => Nat.zero_le _⟩
    · have hlow := neg_one_le_squareDepth c
      have hnot : ¬EvenAfter depth (c :: t) 0 := fun h => hc (evenAfter_zero.mp h)
      have hlater : 0 < depth + squareDepth [c] := by omega
      obtain ⟨n, hn, hleast⟩ | ⟨hnone, hnever⟩ := ih hlater (index + 1)
      · refine .inl ⟨n + 1, by rw [hn, Nat.add_right_comm, Nat.add_assoc], ?_, ?_⟩
        · exact evenAfter_succ.mpr hleast.1
        · intro m hm
          cases m with
          | zero => exact absurd hm hnot
          | succ m => exact Nat.succ_le_succ (hleast.2 (evenAfter_succ.mp hm))
      · refine .inr ⟨hnone, fun n hn => ?_⟩
        cases n with
        | zero => exact hnot hn
        | succ n => exact hnever n (evenAfter_succ.mp hn)

/-! ## Closers by position -/

namespace Text

/-- The characters at the positions from `start` to `stop`, with that at `stop`. -/
def between (t : Text) (start stop : Int) : Text :=
  (List.range (stop + 1 - start).toNat).filterMap fun n : Nat => t.charAt? (start + n)

/-- What is read from a position on: what is there, and once more the whole text where the
position is counted from the end. -/
def readFrom (t : Text) (start : Int) : Text :=
  if start < 0 then t.onward start ++ t else t.onward start

variable {t : Text} {start : Int}

theorem length_readFrom (h : 0 ≤ t.length + start) :
    ((t.readFrom start).length : Int) = max (t.length - start) 0 := by
  unfold readFrom onward offset
  split_ifs <;> simp only [List.length_append, List.length_drop] <;> omega

theorem getElem?_readFrom (h : 0 ≤ t.length + start) {n : Nat} (hn : start + n < t.length) :
    (t.readFrom start)[n]? = t.charAt? (start + n) := by
  have hinside : ¬(t.length : Int) + (start + n) < 0 := by omega
  rw [charAt?, if_neg hinside, offset]
  unfold readFrom onward offset
  -- from the end on, the text is read up to its last character and then from its first
  by_cases hstart : start < 0
  · rw [if_pos hstart, if_pos hstart]
    by_cases hwrap : start + n < 0
    · rw [if_pos hwrap, List.getElem?_append_left (by rw [List.length_drop]; omega),
        List.getElem?_drop]
      congr 1
      omega
    · rw [if_neg hwrap, List.getElem?_append_right (by rw [List.length_drop]; omega),
        List.length_drop]
      congr 1
      omega
  · rw [if_neg hstart, if_neg hstart, if_neg (by omega), List.getElem?_drop]
    congr 1
    omega

theorem filterMap_range_eq_take {u : Text} {f : Nat → Option Char} {n : Nat}
    (hf : ∀ m < n, f m = u[m]?) : (List.range n).filterMap f = u.take n := by
  induction n with
  | zero => rfl
  | succ n ih =>
    rw [List.range_succ, List.filterMap_append, ih fun m hm => hf m (Nat.lt_succ_of_lt hm),
      List.take_add_one]
    cases hn : u[n]? <;> simp [hf n (Nat.lt_succ_self n), hn]

theorem between_eq_take (h : 0 ≤ t.length + start) {n : Nat} (hn : start + n < t.length) :
    t.between start (start + n) = (t.readFrom start).take (n + 1) := by
  have hlength : (start + n + 1 - start).toNat = n + 1 := by omega
  rw [between, hlength]
  exact filterMap_range_eq_take fun m hm => (getElem?_readFrom h (by omega)).symm

end Text

section

variable {t : Text} {start : Int} (h : 0 ≤ t.length + start)
include h

theorem closingBracketAt_of_some {index : Nat}
    (hfound : closingBracket (t.readFrom start) = some index) :
    closingBracketAt t start = .found (start + index) := by
  unfold Text.readFrom at hfound
  rw [closingBracketAt, if_neg (by omega)]
  dsimp only
  rw [hfound]

theorem closingBracketAt_of_none (hnone : closingBracket (t.readFrom start) = none) :
    closingBracketAt t start = .unclosed := by
  unfold Text.readFrom at hnone
  rw [closingBracketAt, if_neg (by omega)]
  dsimp only
  rw [hnone]

end

/-- From one position to a later one there are as many `[` as `]`. -/
structure EvenBetween (t : Text) (start stop : Int) : Prop where
  later : start < stop
  inside : stop < t.length
  even : (t.between start stop).count '[' = (t.between start stop).count ']'

section Positions

variable {t : Text} {start : Int} (h : t.charAt? start = some '[')
include h

theorem exists_readFrom :
    0 ≤ t.length + start ∧ start < t.length ∧ ∃ rest, t.readFrom start = '[' :: rest := by
  have hback : 0 ≤ t.length + start := by
    by_contra hout
    rw [Text.charAt?, if_pos (by omega)] at h
    cases h
  have hinside : start < t.length := by
    by_contra hout
    rw [Text.charAt?, if_neg (by omega), Text.offset, if_neg (by omega),
      List.getElem?_eq_none (by omega)] at h
    cases h
  have hfirst := Text.getElem?_readFrom hback (n := 0) (by simpa using hinside)
  rw [Int.natCast_zero, Int.add_zero, h] at hfirst
  cases hread : t.readFrom start with
  | nil =>
    rw [hread] at hfirst
    cases hfirst
  | cons c rest =>
    rw [hread, List.getElem?_cons_zero] at hfirst
    cases hfirst
    exact ⟨hback, hinside, rest, rfl⟩

/-- Behind the bracket itself the count is one. -/
theorem evenBetween_iff {rest : Text} (hread : t.readFrom start = '[' :: rest) (n : Nat) :
    EvenBetween t start (start + (n + 1)) ↔ EvenAfter 1 rest n := by
  obtain ⟨hback, hinside, -⟩ := exists_readFrom h
  have hlength := Text.length_readFrom hback
  rw [hread, List.length_cons] at hlength
  have hdepth : squareDepth ('[' :: rest.take (n + 1)) = 1 + squareDepth (rest.take (n + 1)) :=
    squareDepth_cons _ _
  have hbetween : start + (n + 1) < t.length →
      t.between start (start + (n + 1)) = '[' :: rest.take (n + 1) := by
    intro hlt
    have htake := Text.between_eq_take hback (n := n + 1) (by exact_mod_cast hlt)
    rw [hread, List.take_succ_cons] at htake
    exact_mod_cast htake
  constructor
  · rintro ⟨-, hlt, heven⟩
    rw [hbetween hlt] at heven
    refine ⟨by omega, ?_⟩
    rw [← hdepth, squareDepth, heven, Int.sub_self]
  · rintro ⟨hlt, hzero⟩
    have hlt : start + (n + 1) < t.length := by omega
    refine ⟨by omega, hlt, ?_⟩
    rw [hbetween hlt]
    rw [← hdepth, squareDepth] at hzero
    omega

/-- The closer is found at the least position up to which the brackets are even, if there is
one. -/
theorem closingBracketAt_cases :
    (∃ i, closingBracketAt t start = .found i ∧ IsLeast {i | EvenBetween t start i} i) ∨
      closingBracketAt t start = .unclosed ∧ ∀ i, ¬EvenBetween t start i := by
  obtain ⟨hback, -, rest, hread⟩ := exists_readFrom h
  have hposition : ∀ {i}, EvenBetween t start i → ∃ n : Nat, i = start + (n + 1) ∧
      EvenAfter 1 rest n := by
    intro i hi
    obtain ⟨n, hn⟩ := Int.le.dest (Int.add_one_le_of_lt hi.later)
    obtain rfl : i = start + (n + 1) := by omega
    exact ⟨n, rfl, (evenBetween_iff h hread n).mp hi⟩
  have hsearch : closingBracket (t.readFrom start) = closingBracketFrom 1 1 rest := by
    rw [hread]
    rfl
  obtain ⟨n, hn, hleast⟩ | ⟨hnone, hnever⟩ := closingBracketFrom_cases Int.one_pos 1 rest
  · refine .inl ⟨start + (n + 1), ?_, (evenBetween_iff h hread n).mpr hleast.1, fun i hi => ?_⟩
    · have hcount : ((1 + n : Nat) : Int) = n + 1 := by omega
      rw [closingBracketAt_of_some hback (hsearch.trans hn), hcount]
    · obtain ⟨m, rfl, hm⟩ := hposition hi
      have := hleast.2 hm
      omega
  · refine .inr ⟨closingBracketAt_of_none hback (hsearch.trans hnone), fun i hi => ?_⟩
    obtain ⟨n, -, hn⟩ := hposition hi
    exact hnever n hn

theorem closingBracketAt_eq_found_iff {i : Int} :
    closingBracketAt t start = .found i ↔ IsLeast {i | EvenBetween t start i} i := by
  obtain ⟨j, hfound, hleast⟩ | ⟨hnone, hnever⟩ := closingBracketAt_cases h
  · rw [hfound, CloserSearch.found.injEq]
    exact ⟨fun heq => heq ▸ hleast, fun hi => hleast.unique hi⟩
  · rw [hnone]
    exact ⟨nofun, fun hi => absurd hi.1 (hnever i)⟩

theorem closingBracketAt_eq_unclosed_iff :
    closingBracketAt t start = .unclosed ↔ ∀ i, ¬EvenBetween t start i := by
  obtain ⟨j, hfound, hleast⟩ | ⟨hnone, hnever⟩ := closingBracketAt_cases h
  · rw [hfound]
    exact ⟨nofun, fun hnever => absurd hleast.1 (hnever j)⟩
  · exact iff_of_true hnone hnever

end Positions

end Reckoner

import Reckoner.Text.Bracket
import Mathlib.Algebra.GroupWithZero.Nat
import Mathlib.Tactic.ByContra
import Mathlib.Tactic.SplitIfs

/-!
# Scanning a text in parts

A scan of one text after another is the scan of the first followed by the scan of the second,
from the depth and the character that the first ends in. A text whose square brackets match
leaves the depth as it was; inside such brackets nothing splits and nothing separates.
-/

namespace Reckoner

/-! ## Where a scan ends -/

/-- The depth after a text. -/
def depthOver (depth : Int) (t : Text) : Int := t.foldl depthAfter depth

/-- The last character of a text, or the one before it. -/
def lastOf (previous : Option Char) (t : Text) : Option Char := t.foldl (fun _ c => some c) previous

@[simp] theorem depthOver_nil (depth : Int) : depthOver depth [] = depth := rfl

@[simp] theorem depthOver_cons (depth : Int) (c : Char) (t : Text) :
    depthOver depth (c :: t) = depthOver (depthAfter depth c) t := rfl

@[simp] theorem depthOver_append (depth : Int) (xs ys : Text) :
    depthOver depth (xs ++ ys) = depthOver (depthOver depth xs) ys := List.foldl_append

@[simp] theorem lastOf_nil (previous : Option Char) : lastOf previous [] = previous := rfl

@[simp] theorem lastOf_cons (previous : Option Char) (c : Char) (t : Text) :
    lastOf previous (c :: t) = lastOf (some c) t := rfl

@[simp] theorem lastOf_append (previous : Option Char) (xs ys : Text) :
    lastOf previous (xs ++ ys) = lastOf (lastOf previous xs) ys := List.foldl_append

theorem lastOf_none (t : Text) : lastOf none t = t.getLast? := by
  rcases List.eq_nil_or_concat t with rfl | ⟨front, c, rfl⟩
  · rfl
  · rw [List.concat_eq_append, lastOf_append, List.getLast?_concat]
    rfl

theorem depthAfter_of_not_isBracket {c : Char} (h : isBracket c = false) (depth : Int) :
    depthAfter depth c = depth := by
  rw [isBracket, Bool.or_eq_false_iff] at h
  rw [depthAfter, h.1, h.2]
  rfl

theorem isCloser_of_isOpener {c : Char} (h : isOpener c = true) : isCloser c = false := by
  rw [isOpener, Bool.or_eq_true, beq_iff_eq, beq_iff_eq] at h
  obtain rfl | rfl := h <;> rfl

theorem depthAfter_of_isOpener {c : Char} (h : isOpener c = true) (depth : Int) :
    depthAfter depth c = depth + 1 := if_pos h

theorem depthAfter_of_isCloser {c : Char} (h : isCloser c = true) (depth : Int) :
    depthAfter depth c = depth - 1 := by
  have hopener : ¬isOpener c = true := fun hopener => by
    rw [isCloser_of_isOpener hopener] at h
    cases h
  rw [depthAfter, if_neg hopener, if_pos h]

/-- The depth after a text is told by its numbers of openers and closers. -/
theorem depthOver_add_countP (depth : Int) (t : Text) :
    depthOver depth t + t.countP isCloser = depth + t.countP isOpener := by
  induction t generalizing depth with
  | nil => rfl
  | cons c t ih =>
    have hrest := ih (depthAfter depth c)
    rw [depthOver_cons, List.countP_cons, List.countP_cons]
    cases hopener : isOpener c with
    | true =>
      rw [depthAfter_of_isOpener hopener] at hrest ⊢
      rw [isCloser_of_isOpener hopener, if_pos rfl, if_neg Bool.false_ne_true]
      omega
    | false =>
      cases hcloser : isCloser c with
      | true =>
        rw [depthAfter_of_isCloser hcloser] at hrest ⊢
        rw [if_pos rfl, if_neg Bool.false_ne_true]
        omega
      | false =>
        have hplain : isBracket c = false := by rw [isBracket, hopener, hcloser]; rfl
        rw [depthAfter_of_not_isBracket hplain] at hrest ⊢
        rw [if_neg Bool.false_ne_true]
        omega

/-! ## Split points -/

variable {operators : Text} {signed : Bool}

theorem splitPointsFrom_append (index : Nat) (depth : Int) (previous : Option Char)
    (xs ys : Text) :
    splitPointsFrom operators signed index depth previous (xs ++ ys) =
      splitPointsFrom operators signed index depth previous xs ++
        splitPointsFrom operators signed (index + xs.length) (depthOver depth xs)
          (lastOf previous xs) ys := by
  induction xs generalizing index depth previous with
  | nil => rfl
  | cons c xs ih =>
    have hlength : index + (c :: xs).length = index + 1 + xs.length := by
      rw [List.length_cons]
      omega
    simp only [List.cons_append, splitPointsFrom, ih, depthOver_cons, lastOf_cons, hlength]
    split <;> rfl

/-- Nothing splits a text that stands at a depth and behind a character. -/
def Unsplit (operators : Text) (signed : Bool) (depth : Int) (previous : Option Char) (t : Text) :
    Prop :=
  ∀ index, splitPointsFrom operators signed index depth previous t = []

theorem unsplit_nil (depth : Int) (previous : Option Char) :
    Unsplit operators signed depth previous [] := fun _ => rfl

theorem Unsplit.cons {depth : Int} {previous : Option Char} {c : Char} {t : Text}
    (hc : depth = 0 → isSplit operators signed previous c = false)
    (ht : Unsplit operators signed (depthAfter depth c) (some c) t) :
    Unsplit operators signed depth previous (c :: t) := by
  intro index
  rw [splitPointsFrom, ht, if_neg]
  intro h
  rw [Bool.and_eq_true, beq_iff_eq] at h
  rw [hc h.1] at h
  exact Bool.false_ne_true h.2

theorem Unsplit.append {depth : Int} {previous : Option Char} {xs ys : Text}
    (hx : Unsplit operators signed depth previous xs)
    (hy : Unsplit operators signed (depthOver depth xs) (lastOf previous xs) ys) :
    Unsplit operators signed depth previous (xs ++ ys) := by
  intro index
  rw [splitPointsFrom_append, hx, hy, List.nil_append]

theorem isSplit_of_not_mem {previous : Option Char} {c : Char} (h : c ∉ operators) :
    isSplit operators signed previous c = false := by
  rw [isSplit, List.contains_eq_mem, decide_eq_false h, Bool.false_and, Bool.false_and]

theorem isSplit_of_isBracket {previous : Option Char} {c : Char} (h : isBracket c = true) :
    isSplit operators signed previous c = false := by
  rw [isSplit, h, Bool.not_true, Bool.and_false, Bool.false_and]

theorem mem_of_isSplit {previous : Option Char} {c : Char}
    (h : isSplit operators signed previous c = true) : c ∈ operators := by
  by_contra hc
  rw [isSplit_of_not_mem hc] at h
  cases h

theorem isBracket_of_isSplit {previous : Option Char} {c : Char}
    (h : isSplit operators signed previous c = true) : isBracket c = false := by
  by_contra hb
  rw [isSplit_of_isBracket (by simpa using hb)] at h
  cases h

/-- A character is a split point by what is before it. -/
theorem mem_splitPointsFrom_iff {index point : Nat} {depth : Int} {previous : Option Char}
    {t : Text} :
    point ∈ splitPointsFrom operators signed index depth previous t ↔
      ∃ l c r, t = l ++ c :: r ∧ point = index + l.length ∧ depthOver depth l = 0 ∧
        isSplit operators signed (lastOf previous l) c = true := by
  constructor
  · intro h
    induction t generalizing index depth previous with
    | nil => cases h
    | cons d t ih =>
      have hlater : point ∈
          splitPointsFrom operators signed (index + 1) (depthAfter depth d) (some d) t →
          ∃ l c r, d :: t = l ++ c :: r ∧ point = index + l.length ∧ depthOver depth l = 0 ∧
            isSplit operators signed (lastOf previous l) c = true := by
        intro h
        obtain ⟨l, c, r, rfl, rfl, hdepth, hc⟩ := ih h
        refine ⟨d :: l, c, r, rfl, ?_, hdepth, hc⟩
        rw [List.length_cons]
        omega
      rw [splitPointsFrom] at h
      split_ifs at h with hd
      · rw [Bool.and_eq_true, beq_iff_eq] at hd
        rcases List.mem_cons.mp h with rfl | h
        · exact ⟨[], d, t, rfl, rfl, hd.1, hd.2⟩
        · exact hlater h
      · exact hlater h
  · rintro ⟨l, c, r, rfl, rfl, hdepth, hc⟩
    rw [splitPointsFrom_append, splitPointsFrom, hdepth, hc]
    exact List.mem_append_right _ List.mem_cons_self

/-- A split point that nothing after it splits is the last one. -/
theorem splitPoints_snoc {l r : Text} {c : Char} (hdepth : depthOver 0 l = 0)
    (hc : isSplit operators signed (lastOf none l) c = true)
    (hr : Unsplit operators signed 0 (some c) r) :
    splitPoints operators signed (l ++ c :: r) = splitPoints operators signed l ++ [l.length] := by
  rw [splitPoints, splitPointsFrom_append, hdepth, splitPointsFrom,
    depthAfter_of_not_isBracket (isBracket_of_isSplit hc), hr, hc, Nat.zero_add]
  rfl

theorem unsplit_of_eq_nil {index : Nat} {depth : Int} {previous : Option Char} {t : Text}
    (h : splitPointsFrom operators signed index depth previous t = []) :
    Unsplit operators signed depth previous t := by
  induction t generalizing index depth previous with
  | nil => exact unsplit_nil _ _
  | cons c t ih =>
    rw [splitPointsFrom] at h
    split_ifs at h with hc
    refine .cons (fun hd => ?_) (ih h)
    rw [hd, beq_self_eq_true, Bool.true_and, Bool.not_eq_true] at hc
    exact hc

theorem Unsplit.of_cons {depth : Int} {previous : Option Char} {c : Char} {t : Text}
    (h : Unsplit operators signed depth previous (c :: t)) :
    (depth = 0 → isSplit operators signed previous c = false) ∧
      Unsplit operators signed (depthAfter depth c) (some c) t := by
  have hsplit := h 0
  rw [splitPointsFrom] at hsplit
  split_ifs at hsplit with hc
  refine ⟨fun hd => ?_, unsplit_of_eq_nil hsplit⟩
  rw [hd, beq_self_eq_true, Bool.true_and, Bool.not_eq_true] at hc
  exact hc

theorem Unsplit.of_append {depth : Int} {previous : Option Char} {xs ys : Text}
    (h : Unsplit operators signed depth previous (xs ++ ys)) :
    Unsplit operators signed depth previous xs ∧
      Unsplit operators signed (depthOver depth xs) (lastOf previous xs) ys := by
  have hsplit := h 0
  rw [splitPointsFrom_append, List.append_eq_nil_iff] at hsplit
  exact ⟨unsplit_of_eq_nil hsplit.1, unsplit_of_eq_nil hsplit.2⟩

/-- A last split point is at depth zero, and nothing after it splits. -/
theorem of_splitPoints_snoc {l r : Text} {c : Char}
    (h : splitPoints operators signed (l ++ c :: r) = splitPoints operators signed l ++ [l.length]) :
    depthOver 0 l = 0 ∧ isSplit operators signed (lastOf none l) c = true ∧
      Unsplit operators signed 0 (some c) r := by
  rw [splitPoints, splitPoints, splitPointsFrom_append, List.append_cancel_left_eq,
    splitPointsFrom, Nat.zero_add] at h
  split_ifs at h with hc
  · rw [Bool.and_eq_true, beq_iff_eq] at hc
    have hlater := unsplit_of_eq_nil (List.cons.inj h).2
    rw [depthAfter_of_not_isBracket (isBracket_of_isSplit hc.2), hc.1] at hlater
    exact ⟨hc.1, hc.2, hlater⟩
  · -- the position of `c` is not among those after it
    have hmem := mem_splitPointsFrom (h ▸ List.mem_singleton_self l.length)
    omega

/-- A text that is split has a last split point. -/
theorem exists_last_split {index : Nat} {depth : Int} {previous : Option Char} {t : Text}
    (h : splitPointsFrom operators signed index depth previous t ≠ []) :
    ∃ l c r, t = l ++ c :: r ∧ c ∈ operators ∧
      splitPointsFrom operators signed index depth previous t =
        splitPointsFrom operators signed index depth previous l ++ [index + l.length] := by
  induction t generalizing index depth previous with
  | nil => exact absurd rfl h
  | cons d t ih =>
    rw [splitPointsFrom] at h ⊢
    by_cases hrest :
        splitPointsFrom operators signed (index + 1) (depthAfter depth d) (some d) t = []
    · rw [hrest] at h ⊢
      split_ifs at h ⊢ with hd
      · rw [Bool.and_eq_true] at hd
        exact ⟨[], d, t, rfl, mem_of_isSplit hd.2, by simp [splitPointsFrom]⟩
      · exact absurd rfl h
    · obtain ⟨l, c, r, rfl, hc, hsplit⟩ := ih hrest
      refine ⟨d :: l, c, r, rfl, hc, ?_⟩
      have hindex : index + (d :: l).length = index + 1 + l.length := by
        rw [List.length_cons]
        omega
      rw [hsplit, hindex, splitPointsFrom]
      split_ifs <;> rfl

variable (operators signed) in
/-- **Induction on the last split point.** A text has no split point, or it has a last one, and
what is in front of that is a shorter text with the split points that are left. -/
theorem splitPoints_induction {motive : Text → Prop}
    (unsplit : ∀ t, splitPoints operators signed t = [] → motive t)
    (snoc : ∀ l c r, c ∈ operators → splitPoints operators signed (l ++ c :: r) =
      splitPoints operators signed l ++ [l.length] → motive l → motive (l ++ c :: r)) (t : Text) :
    motive t := by
  induction hlength : t.length using Nat.strongRecOn generalizing t with
  | _ n ih =>
    by_cases hnone : splitPoints operators signed t = []
    · exact unsplit t hnone
    · obtain ⟨l, c, r, rfl, hc, hlast⟩ := exists_last_split hnone
      rw [Nat.zero_add] at hlast
      refine snoc l c r hc hlast (ih l.length ?_ l rfl)
      rw [← hlength, List.length_append, List.length_cons]
      omega

/-! ## Sealed texts -/

/-- The square brackets of a text match and there are no others; the characters outside of
all brackets have a property. -/
inductive Sealed : (Char → Prop) → Text → Prop where
  | nil {P : Char → Prop} : Sealed P []
  | char {P : Char → Prop} {c : Char} {t : Text} (hb : isBracket c = false) (hc : P c)
    (ht : Sealed P t) : Sealed P (c :: t)
  | bracketed {P : Char → Prop} {x t : Text} (hx : Sealed (fun _ => True) x) (ht : Sealed P t) :
    Sealed P ('[' :: (x ++ ']' :: t))

namespace Sealed

variable {P Q : Char → Prop} {s t : Text}

theorem of_forall (h : ∀ c ∈ t, isBracket c = false ∧ P c) : Sealed P t := by
  induction t with
  | nil => exact .nil
  | cons c t ih =>
    obtain ⟨hb, hc⟩ := h c List.mem_cons_self
    exact .char hb hc (ih fun d hd => h d (List.mem_cons_of_mem c hd))

theorem append (hs : Sealed P s) (ht : Sealed P t) : Sealed P (s ++ t) := by
  induction hs with
  | nil => exact ht
  | char hb hc _ ih => exact .char hb hc (ih ht)
  | bracketed hx _ _ ih =>
    rw [List.cons_append, List.append_assoc, List.cons_append]
    exact .bracketed hx (ih ht)

theorem mono (h : Sealed P t) (hPQ : ∀ c, P c → Q c) : Sealed Q t := by
  induction h with
  | nil => exact .nil
  | char hb hc _ ih => exact .char hb (hPQ _ hc) (ih hPQ)
  | bracketed hx _ _ ih => exact .bracketed hx (ih hPQ)

/-- After a sealed text the depth is what it was before. -/
theorem depthOver_eq (h : Sealed P t) (depth : Int) : depthOver depth t = depth := by
  induction h generalizing depth with
  | nil => rfl
  | char hb _ _ ih => rw [depthOver_cons, depthAfter_of_not_isBracket hb, ih]
  | bracketed _ _ ihx iht =>
    rw [depthOver_cons, depthOver_append, ihx, depthOver_cons, iht]
    show depth + 1 - 1 = depth
    omega

/-- Inside of a bracket nothing splits. -/
theorem unsplit_of_pos (h : Sealed P t) {depth : Int} (hd : 0 < depth) (previous : Option Char) :
    Unsplit operators signed depth previous t := by
  induction h generalizing depth previous with
  | nil => exact unsplit_nil _ _
  | char hb _ _ ih =>
    refine .cons (fun h0 => by omega) ?_
    rw [depthAfter_of_not_isBracket hb]
    exact ih hd _
  | bracketed hx _ ihx iht =>
    have hopen : depthAfter depth '[' = depth + 1 := rfl
    have hclose : depthAfter (depth + 1) ']' = depth := by
      show depth + 1 - 1 = depth
      omega
    refine .cons (fun h0 => by omega) ?_
    rw [hopen]
    refine .append (ihx (by omega) _) ?_
    rw [hx.depthOver_eq]
    refine .cons (fun h0 => by omega) ?_
    rw [hclose]
    exact iht hd _

/-- A text without the characters of a tier outside of its brackets is not split. -/
theorem unsplit (h : Sealed (· ∉ operators) t) (previous : Option Char) :
    Unsplit operators signed 0 previous t := by
  generalize hP : (· ∉ operators) = P at h
  induction h generalizing previous with
  | nil => exact unsplit_nil _ _
  | char hb hc _ ih =>
    subst hP
    refine .cons (fun _ => isSplit_of_not_mem hc) ?_
    rw [depthAfter_of_not_isBracket hb]
    exact ih _ rfl
  | bracketed hx _ _ iht =>
    refine .cons (fun _ => isSplit_of_isBracket rfl) ?_
    have hopen : depthAfter 0 '[' = 1 := rfl
    rw [hopen]
    refine .append (hx.unsplit_of_pos Int.one_pos _) ?_
    rw [hx.depthOver_eq]
    exact .cons (fun _ => isSplit_of_isBracket rfl) (iht _ hP)

/-- Behind a sealed text the depth is the one before it. -/
theorem unsplit_append {previous : Option Char} (hs : Sealed P s)
    (hunsplit : Unsplit operators signed 0 previous s)
    (ht : Unsplit operators signed 0 (lastOf previous s) t) :
    Unsplit operators signed 0 previous (s ++ t) := by
  refine hunsplit.append ?_
  rw [hs.depthOver_eq]
  exact ht

/-- There are no round brackets, and the square ones are even in number. -/
theorem count_eq (h : Sealed P t) :
    '(' ∉ t ∧ ')' ∉ t ∧ t.count '[' = t.count ']' := by
  induction h with
  | nil => exact ⟨List.not_mem_nil, List.not_mem_nil, rfl⟩
  | @char _ c t hb _ _ ih =>
    have hne : ∀ b, isBracket b = true → b ≠ c := by
      rintro b hbracket rfl
      rw [hb] at hbracket
      cases hbracket
    refine ⟨List.not_mem_cons_of_ne_of_not_mem (hne '(' rfl) ih.1,
      List.not_mem_cons_of_ne_of_not_mem (hne ')' rfl) ih.2.1, ?_⟩
    rw [List.count_cons_of_ne (hne '[' rfl).symm, List.count_cons_of_ne (hne ']' rfl).symm, ih.2.2]
  | bracketed _ _ ihx iht =>
    refine ⟨?_, ?_, ?_⟩
    · simp [ihx.1, iht.1]
    · simp [ihx.2.1, iht.2.1]
    · simp [ihx.2.2, iht.2.2]
      omega

end Sealed

/-! ## Separated parts -/

/-- Puts a text in front of the first part. -/
def prependPart (t : Text) (parts : List Text) : List Text := t.foldr consPart parts

theorem prependPart_cons (t p : Text) (parts : List Text) :
    prependPart t (p :: parts) = (t ++ p) :: parts := by
  induction t with
  | nil => rfl
  | cons c t ih =>
    show consPart c (prependPart t (p :: parts)) = _
    rw [ih]
    rfl

variable {isSeparator : Char → Bool}

theorem splitTopLevelFrom_of_pos {P : Char → Prop} {t : Text} (h : Sealed P t) {depth : Int}
    (hd : 0 < depth) (rest : Text) :
    splitTopLevelFrom isSeparator depth (t ++ rest) =
      prependPart t (splitTopLevelFrom isSeparator depth rest) := by
  have hdepth : ∀ {d : Int}, 0 < d → (d == 0) = false := fun hd => beq_false_of_ne (by omega)
  induction h generalizing depth rest with
  | nil => rfl
  | char hb _ _ ih =>
    rw [List.cons_append, splitTopLevelFrom, hdepth hd, Bool.and_false,
      if_neg Bool.false_ne_true, depthAfter_of_not_isBracket hb, ih hd]
    rfl
  | bracketed hx _ ihx iht =>
    have hopen : depthAfter depth '[' = depth + 1 := rfl
    have hclose : depthAfter (depth + 1) ']' = depth := by
      show depth + 1 - 1 = depth
      omega
    rw [List.cons_append, splitTopLevelFrom, hdepth hd, Bool.and_false,
      if_neg Bool.false_ne_true, hopen, List.append_assoc, ihx (by omega), List.cons_append,
      splitTopLevelFrom, hdepth (by omega), Bool.and_false, if_neg Bool.false_ne_true, hclose,
      iht hd]
    simp [prependPart, List.foldr_append]

/-- The text belongs to one part, whatever follows it. -/
def OnePart (isSeparator : Char → Bool) (t : Text) : Prop :=
  ∀ rest, splitTopLevelFrom isSeparator 0 (t ++ rest) =
    prependPart t (splitTopLevelFrom isSeparator 0 rest)

/-- A sealed text without separators outside of its brackets. -/
theorem Sealed.onePart {t : Text} (h : Sealed (isSeparator · = false) t) :
    OnePart isSeparator t := by
  intro rest
  generalize hP : (isSeparator · = false) = P at h
  induction h generalizing rest with
  | nil => rfl
  | char hb hc _ ih =>
    subst hP
    rw [List.cons_append, splitTopLevelFrom, hc, Bool.false_and, Bool.false_and,
      if_neg Bool.false_ne_true, depthAfter_of_not_isBracket hb, ih _ rfl]
    rfl
  | bracketed hx _ _ iht =>
    have hopen : depthAfter 0 '[' = 1 := rfl
    have hclose : depthAfter 1 ']' = 0 := rfl
    have hbracket : ∀ c, isBracket c = true → (isSeparator c && !isBracket c) = false := by
      intro c hc
      rw [hc, Bool.not_true, Bool.and_false]
    rw [List.cons_append, splitTopLevelFrom, hbracket _ rfl, Bool.false_and,
      if_neg Bool.false_ne_true, hopen, List.append_assoc, splitTopLevelFrom_of_pos hx Int.one_pos,
      List.cons_append, splitTopLevelFrom, hbracket _ rfl, Bool.false_and,
      if_neg Bool.false_ne_true, hclose, iht _ hP]
    simp [prependPart, List.foldr_append]

theorem OnePart.splitTopLevel_eq {t : Text} (h : OnePart isSeparator t) :
    splitTopLevel isSeparator t = [t] := by
  have hwhole := h []
  rw [List.append_nil] at hwhole
  rw [splitTopLevel, hwhole]
  exact (prependPart_cons t [] []).trans (by rw [List.append_nil])

theorem join_singleton (separator p : Text) : Text.join separator [p] = p := by simp [Text.join]

theorem join_cons_cons (c : Char) (p q : Text) (parts : List Text) :
    Text.join [c] (p :: q :: parts) = p ++ c :: Text.join [c] (q :: parts) := by simp [Text.join]

/-- More parts only go on. -/
theorem join_append_isPrefix (separator : Text) (xs ys : List Text) :
    Text.join separator xs <+: Text.join separator (xs ++ ys) := by
  induction xs with
  | nil => exact List.nil_prefix
  | cons x xs ih =>
    cases xs with
    | nil =>
      cases ys with
      | nil => exact List.prefix_rfl
      | cons y ys => simp [Text.join]
    | cons x' xs =>
      have hjoin : ∀ zs, Text.join separator (x :: x' :: zs) =
          x ++ (separator ++ Text.join separator (x' :: zs)) := by
        intro zs
        simp [Text.join]
      rw [List.cons_append, List.cons_append, hjoin, hjoin, List.prefix_append_right_inj,
        List.prefix_append_right_inj]
      exact ih

/-- What is kept by putting a separator between two texts is true of joined parts. -/
theorem join_of_append {P : Text → Prop} {a : Char} (hnil : P [])
    (happend : ∀ {s t}, P s → P t → P (s ++ a :: t)) {parts : List Text}
    (h : ∀ p ∈ parts, P p) : P (Text.join [a] parts) := by
  induction parts with
  | nil => exact hnil
  | cons p parts ih =>
    obtain ⟨hp, hparts⟩ := List.forall_mem_cons.mp h
    cases parts with
    | nil =>
      rw [join_singleton]
      exact hp
    | cons q parts =>
      rw [join_cons_cons]
      exact happend hp (ih hparts)

/-- The characters of joined parts are theirs and those of the separator. -/
theorem mem_of_mem_join {separator : Text} {parts : List Text} {c : Char}
    (h : c ∈ Text.join separator parts) : c ∈ separator ∨ ∃ p ∈ parts, c ∈ p := by
  induction parts with
  | nil => cases h
  | cons p parts ih =>
    cases parts with
    | nil =>
      rw [join_singleton] at h
      exact .inr ⟨p, List.mem_cons_self, h⟩
    | cons q parts =>
      have hjoin : Text.join separator (p :: q :: parts) =
          p ++ (separator ++ Text.join separator (q :: parts)) := by simp [Text.join]
      rw [hjoin, List.mem_append, List.mem_append] at h
      rcases h with h | h | h
      · exact .inr ⟨p, List.mem_cons_self, h⟩
      · exact .inl h
      · obtain hc | ⟨r, hr, hc⟩ := ih h
        · exact .inl hc
        · exact .inr ⟨r, List.mem_cons_of_mem p hr, hc⟩

/-- Joined parts are found again. -/
theorem splitTopLevel_join_onePart {c : Char} (hc : isSeparator c = true) (hb : isBracket c = false)
    {parts : List Text} (hne : parts ≠ []) (h : ∀ p ∈ parts, OnePart isSeparator p) :
    splitTopLevel isSeparator (Text.join [c] parts) = parts := by
  induction parts with
  | nil => exact absurd rfl hne
  | cons p parts ih =>
    have hp := h p List.mem_cons_self
    cases parts with
    | nil =>
      rw [join_singleton, hp.splitTopLevel_eq]
    | cons q parts =>
      have hrest := ih (List.cons_ne_nil q parts) fun r hr => h r (List.mem_cons_of_mem p hr)
      rw [splitTopLevel] at hrest ⊢
      rw [join_cons_cons, hp, splitTopLevelFrom, hc, hb]
      simp only [Bool.not_false, Bool.and_true, beq_self_eq_true, if_true]
      rw [hrest, prependPart_cons, List.append_nil]

theorem splitTopLevel_join {c : Char} (hc : isSeparator c = true) (hb : isBracket c = false)
    {parts : List Text} (hne : parts ≠ [])
    (h : ∀ p ∈ parts, Sealed (isSeparator · = false) p) :
    splitTopLevel isSeparator (Text.join [c] parts) = parts :=
  splitTopLevel_join_onePart hc hb hne fun p hp => (h p hp).onePart

/-- Without a separator there is one part. -/
theorem splitTopLevelFrom_of_forall {t : Text} (h : ∀ c ∈ t, isSeparator c = false) (depth : Int) :
    splitTopLevelFrom isSeparator depth t = [t] := by
  induction t generalizing depth with
  | nil => rfl
  | cons c t ih =>
    have hc := h c List.mem_cons_self
    rw [splitTopLevelFrom, hc, Bool.false_and, Bool.false_and, if_neg Bool.false_ne_true,
      ih fun d hd => h d (List.mem_cons_of_mem c hd)]
    rfl

theorem join_nil_cons (a : Char) {parts : List Text} (h : parts ≠ []) :
    Text.join [a] ([] :: parts) = a :: Text.join [a] parts := by
  cases parts with
  | nil => exact absurd rfl h
  | cons p parts => simp [Text.join]

theorem join_consPart (a c : Char) {parts : List Text} (h : parts ≠ []) :
    Text.join [a] (consPart c parts) = c :: Text.join [a] parts := by
  cases parts with
  | nil => exact absurd rfl h
  | cons p parts => cases parts <;> simp [Text.join, consPart]

/-- Some separators of a text, none of them a bracket, have been changed to `a`. -/
inductive Reseparated (isSeparator : Char → Bool) (a : Char) : Text → Text → Prop where
  | nil : Reseparated isSeparator a [] []
  | keep (c : Char) {t u : Text} (h : Reseparated isSeparator a t u) :
    Reseparated isSeparator a (c :: t) (c :: u)
  | change {c : Char} {t u : Text} (hc : isSeparator c = true) (hb : isBracket c = false)
    (h : Reseparated isSeparator a t u) : Reseparated isSeparator a (c :: t) (a :: u)

/-- Splitting and joining anew only changes separators. -/
theorem reseparated_join (isSeparator : Char → Bool) (a : Char) (depth : Int) (t : Text) :
    Reseparated isSeparator a t (Text.join [a] (splitTopLevelFrom isSeparator depth t)) := by
  induction t generalizing depth with
  | nil => exact .nil
  | cons c t ih =>
    rw [splitTopLevelFrom]
    split_ifs with hc
    · simp only [Bool.and_eq_true, Bool.not_eq_true'] at hc
      rw [join_nil_cons a (splitTopLevelFrom_ne_nil _ _)]
      exact .change hc.1.1 hc.1.2 (ih depth)
    · rw [join_consPart a c (splitTopLevelFrom_ne_nil _ _)]
      exact .keep c (ih _)

namespace Reseparated

variable {a : Char} {t u : Text}

/-- What is split at a character is joined by it again. -/
theorem eq (h : Reseparated (· == a) a t u) : u = t := by
  induction h with
  | nil => rfl
  | keep c _ ih => rw [ih]
  | change hc _ _ ih => rw [ih, eq_of_beq hc]

theorem length_eq (h : Reseparated isSeparator a t u) : u.length = t.length := by
  induction h with
  | nil => rfl
  | keep c _ ih => rw [List.length_cons, List.length_cons, ih]
  | change _ _ _ ih => rw [List.length_cons, List.length_cons, ih]

theorem count_eq (h : Reseparated isSeparator a t u) {c : Char} (hc : isSeparator c = false)
    (ha : c ≠ a) : u.count c = t.count c := by
  induction h with
  | nil => rfl
  | keep d _ ih => rw [List.count_cons, List.count_cons, ih]
  | @change d _ _ hd _ _ ih =>
    have hne : c ≠ d := by
      rintro rfl
      rw [hc] at hd
      cases hd
    rw [List.count_cons_of_ne ha.symm, List.count_cons_of_ne hne.symm, ih]

end Reseparated

theorem sum_count_consPart (c d : Char) {parts : List Text} (h : parts ≠ []) :
    ((consPart d parts).map (·.count c)).sum = [d].count c + (parts.map (·.count c)).sum := by
  cases parts with
  | nil => exact absurd rfl h
  | cons p parts =>
    simp only [consPart, List.map_cons, List.sum_cons, List.count_cons, List.count_nil]
    omega

/-- A character that does not separate is as often in all parts together as in the text. -/
theorem sum_count_splitTopLevelFrom {c : Char} (hc : isSeparator c = false) (depth : Int)
    (t : Text) : ((splitTopLevelFrom isSeparator depth t).map (·.count c)).sum = t.count c := by
  induction t generalizing depth with
  | nil => rfl
  | cons d t ih =>
    rw [splitTopLevelFrom]
    split_ifs with hd
    · have hne : d ≠ c := by
        rintro rfl
        rw [hc] at hd
        exact Bool.false_ne_true hd
      rw [List.map_cons, List.sum_cons, List.count_nil, ih, List.count_cons_of_ne hne, Nat.zero_add]
    · rw [sum_count_consPart c d (splitTopLevelFrom_ne_nil _ _), ih, ← List.count_append]
      rfl

theorem mem_consPart {c d : Char} {p : Text} {parts : List Text} (h : p ∈ consPart c parts)
    (hd : d ∈ p) : d = c ∨ ∃ q ∈ parts, d ∈ q := by
  cases parts with
  | nil =>
    rw [consPart, List.mem_singleton] at h
    rw [h, List.mem_singleton] at hd
    exact .inl hd
  | cons q parts =>
    rcases List.mem_cons.mp h with rfl | h
    · rcases List.mem_cons.mp hd with rfl | hd
      · exact .inl rfl
      · exact .inr ⟨q, List.mem_cons_self, hd⟩
    · exact .inr ⟨p, List.mem_cons_of_mem q h, hd⟩

/-- The characters of a part are characters of the text. -/
theorem mem_of_mem_splitTopLevelFrom {depth : Int} {t p : Text} {c : Char}
    (hp : p ∈ splitTopLevelFrom isSeparator depth t) (hc : c ∈ p) : c ∈ t := by
  induction t generalizing depth p with
  | nil =>
    rw [splitTopLevelFrom, List.mem_singleton] at hp
    rw [hp] at hc
    exact hc
  | cons d t ih =>
    rw [splitTopLevelFrom] at hp
    split_ifs at hp
    · rcases List.mem_cons.mp hp with rfl | hp
      · cases hc
      · exact List.mem_cons_of_mem d (ih hp hc)
    · rcases mem_consPart hp hc with rfl | ⟨q, hq, hc⟩
      · exact List.mem_cons_self
      · exact List.mem_cons_of_mem d (ih hq hc)

theorem exists_mem_consPart {c d : Char} {parts : List Text}
    (h : d = c ∨ ∃ q ∈ parts, d ∈ q) : ∃ p ∈ consPart c parts, d ∈ p := by
  cases parts with
  | nil =>
    rcases h with rfl | ⟨q, hq, -⟩
    · exact ⟨[d], List.mem_cons_self, List.mem_cons_self⟩
    · cases hq
  | cons q parts =>
    rcases h with rfl | ⟨r, hr, hd⟩
    · exact ⟨d :: q, List.mem_cons_self, List.mem_cons_self⟩
    · rcases List.mem_cons.mp hr with rfl | hr
      · exact ⟨c :: r, List.mem_cons_self, List.mem_cons_of_mem c hd⟩
      · exact ⟨r, List.mem_cons_of_mem _ hr, hd⟩

/-- A character that does not separate is in one of the parts. -/
theorem exists_part_of_mem {depth : Int} {t : Text} {c : Char} (hsep : isSeparator c = false)
    (hc : c ∈ t) : ∃ p ∈ splitTopLevelFrom isSeparator depth t, c ∈ p := by
  induction t generalizing depth with
  | nil => cases hc
  | cons d t ih =>
    rw [splitTopLevelFrom]
    split_ifs with hd
    · have hne : c ≠ d := by
        rintro rfl
        rw [hsep] at hd
        exact Bool.false_ne_true hd
      obtain ⟨p, hp, hcp⟩ := ih ((List.mem_cons.mp hc).resolve_left hne)
      exact ⟨p, List.mem_cons_of_mem _ hp, hcp⟩
    · refine exists_mem_consPart ?_
      rcases List.mem_cons.mp hc with rfl | hc
      · exact .inl rfl
      · exact .inr (ih hc)

/-! ## The closer of a bracket -/

/-- Nothing in a sealed text closes a bracket before it. -/
theorem Sealed.closingBracketFrom_append {P : Char → Prop} {t : Text} (h : Sealed P t)
    {depth : Int} (hd : 0 < depth) (index : Nat) (rest : Text) :
    closingBracketFrom index depth (t ++ rest) =
      closingBracketFrom (index + t.length) depth rest := by
  induction h generalizing depth index rest with
  | nil => rfl
  | @char _ c t hb _ _ ih =>
    have hopen : (c == '[') = false := by
      refine beq_false_of_ne ?_
      rintro rfl
      cases hb
    have hclose : (c == ']') = false := by
      refine beq_false_of_ne ?_
      rintro rfl
      cases hb
    rw [List.cons_append, closingBracketFrom, hopen, hclose, if_neg Bool.false_ne_true,
      if_neg Bool.false_ne_true, ih hd, List.length_cons]
    congr 1
    omega
  | @bracketed _ x t _ _ ihx iht =>
    have hone : (depth + 1 == 1) = false := beq_false_of_ne (by omega)
    have hopen : ∀ rest, closingBracketFrom index depth ('[' :: rest) =
        closingBracketFrom (index + 1) (depth + 1) rest := fun rest => rfl
    have hclose : ∀ index rest, closingBracketFrom index (depth + 1) (']' :: rest) =
        closingBracketFrom (index + 1) depth rest := by
      intro index rest
      rw [closingBracketFrom, if_neg (by decide), if_pos (by decide), hone,
        if_neg Bool.false_ne_true, Int.add_sub_cancel]
    rw [List.cons_append, hopen, List.append_assoc, ihx (by omega), List.cons_append, hclose,
      iht hd]
    congr 1
    simp
    omega

theorem getElem?_of_closingBracketFrom {index point : Nat} {depth : Int} {t : Text}
    (h : closingBracketFrom index depth t = some point) :
    index ≤ point ∧ t[point - index]? = some ']' := by
  induction t generalizing index depth with
  | nil => cases h
  | cons c t ih =>
    have hstep : ∀ {depth : Int}, closingBracketFrom (index + 1) depth t = some point →
        index ≤ point ∧ (c :: t)[point - index]? = some ']' := by
      intro depth h
      obtain ⟨hle, hget⟩ := ih h
      refine ⟨by omega, ?_⟩
      rw [show point - index = point - (index + 1) + 1 by omega, List.getElem?_cons_succ, hget]
    rw [closingBracketFrom] at h
    split_ifs at h with hopen hclose hone
    · exact hstep h
    · cases h
      refine ⟨Nat.le_refl _, ?_⟩
      rw [Nat.sub_self, List.getElem?_cons_zero, eq_of_beq hclose]
    · exact hstep h
    · exact hstep h

end Reckoner

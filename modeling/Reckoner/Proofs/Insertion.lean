import Reckoner.Proofs.Token
import Reckoner.Proofs.Group
import Reckoner.Proofs.Outcome

/-!
# The value of a group in its place

A group that is given by positions is replaced by the literal of its value, with a `*` next to
an adjacent digit. That keeps the literal apart from digits, but not from all that can continue
a numeral: with a few neighbours the literal ends up in a longer numeral, and these are listed
(`simplify_value`). After `2.` a literal with an exponent and without a point is one of them.
-/

namespace Reckoner

open Eval

variable {σ : Type}

/-! ## Neighbours by position -/

/-- What comes to stand before the value of a group that starts at a position. -/
def beforeValue (t : Text) (start : Int) : Text :=
  t.upTo start ++ if 0 < start then timesBeside (t.upTo start).getLast? else []

/-- What comes to stand behind the value of a group that ends at a position. -/
def behindValue (t : Text) (stop : Int) : Text :=
  timesBeside (t.onward (stop + 1)).head? ++ t.onward (stop + 1)

theorem eq_of_charAt {t : Text} {position : Int} {neighbour : Option Char}
    (h : Site.charAt t position = .ok neighbour) :
    ∃ c, neighbour = some c ∧ t[t.offset position]? = some c := by
  unfold Site.charAt Text.charAt? at h
  split_ifs at h
  cases hc : t[t.offset position]? with
  | none => rw [hc] at h; cases h
  | some c =>
    rw [hc] at h
    cases h
    exact ⟨c, rfl, rfl⟩

/-- The neighbour on the left is the last character before the group. -/
theorem leftNeighbour_atPositions {t : Text} {start stop : Int} {left : Option Char}
    (h : (Site.atPositions t start stop).leftNeighbour = .ok left) :
    timesBeside left = if 0 < start then timesBeside (t.upTo start).getLast? else [] := by
  unfold Site.atPositions at h
  dsimp only at h
  split_ifs at h ⊢ with hstart
  · obtain ⟨c, rfl, hc⟩ := eq_of_charAt h
    obtain ⟨n, rfl⟩ : ∃ n : Nat, start = n + 1 := ⟨(start - 1).toNat, by omega⟩
    have hoffset : t.offset ((n : Int) + 1 - 1) = n := by
      rw [Text.offset, if_neg (by omega)]
      omega
    have hupTo : t.upTo ((n : Int) + 1) = t.take (n + 1) := by
      rw [Text.upTo, Text.offset, if_neg (by omega)]
      congr 1
    rw [hoffset] at hc
    rw [hupTo, List.getLast?_take, if_neg (Nat.succ_ne_zero n), Nat.add_sub_cancel, hc]
    rfl
  · cases h
    rfl

/-- The neighbour on the right is the first character behind the group. -/
theorem rightNeighbour_atPositions {t : Text} {start stop : Int} {right : Option Char}
    (h : (Site.atPositions t start stop).rightNeighbour = .ok right) :
    right = (t.onward (stop + 1)).head? := by
  unfold Site.atPositions at h
  dsimp only at h
  rw [Text.onward, List.head?_drop]
  split_ifs at h with hstop
  · obtain ⟨c, rfl, hc⟩ := eq_of_charAt h
    exact hc.symm
  · cases h
    symm
    rw [List.getElem?_eq_none_iff, Text.offset, if_neg (by omega)]
    omega

theorem head?_behindValue (t : Text) (stop : Int) :
    ∀ c, (behindValue t stop).head? = some c → isDecimalDigit c = false := by
  intro c hc
  unfold behindValue timesBeside at hc
  split_ifs at hc with hdigit
  · cases hc
    decide
  · rw [List.nil_append] at hc
    rw [hc] at hdigit
    by_contra hdecimal
    refine hdigit ?_
    rw [Option.any_some, isDigitLike, Bool.or_eq_true]
    exact .inl (by simpa using hdecimal)

/-! ## The value of a group -/

/-- **The value of a group as a token.** When the group between two positions is replaced by its
value without a problem, the literal of the value is a token of its own in the new text if and
only if its neighbours there do not join it. -/
theorem simplify_value {setting : Setting σ} {t inner folded : Text} {start stop : Int}
    {s u : Progress σ} (h : simplify setting t start stop inner s = .ok folded u)
    (hu : u.failed = false) (hvalue : ¬1 < (splitTopLevel (· == ',') inner).length) :
    ∃ value v, evaluate setting inner s = .ok value v ∧
      folded = beforeValue t start ++ literalText value ++ behindValue t stop ∧
      (Atomic (beforeValue t start) (literalText value) (behindValue t stop) ↔
        ¬Joins (beforeValue t start) (literalText value) (behindValue t stop)) := by
  obtain ⟨-, value, v, left, right, hrun, -, hfinite, hleft, hright, hfolded, -⟩ :=
    foldGroup_value_eq_ok h hu hvalue
  refine ⟨value, v, hrun, ?_, atomic_literalText hfinite (head?_behindValue t stop)⟩
  rw [hfolded, Site.replaced, leftNeighbour_atPositions hleft, rightNeighbour_atPositions hright]
  simp only [beforeValue, behindValue, List.append_assoc]
  rfl

theorem simplify_value_product :
    ∃ u value, simplify usual ['3', '(', '9', ')'] 1 3 ['9'] ({ dice := .low } : Progress Feed) =
        .ok (['3', '*'] ++ literalText value) u ∧
      u.failed = false ∧ ¬1 < (splitTopLevel (· == ',') ['9']).length ∧
      Atomic ['3', '*'] (literalText value) [] := by
  have hrun : ∃ u, simplify usual ['3', '(', '9', ')'] 1 3 ['9'] ({ dice := .low } : Progress Feed) =
      .ok ['3', '*', '9', '.', '0'] u ∧ u.failed = false := by decide +kernel
  obtain ⟨u, h, hu⟩ := hrun
  obtain ⟨value, v, -, hfolded, htoken⟩ := simplify_value h hu (by decide)
  have hbefore : beforeValue ['3', '(', '9', ')'] 1 = ['3', '*'] := by decide
  have hbehind : behindValue ['3', '(', '9', ')'] 3 = [] := by decide
  rw [hbefore, hbehind] at hfolded htoken
  rw [List.append_nil] at hfolded
  refine ⟨u, value, hfolded ▸ h, hu, by decide, htoken.mpr fun hjoins => ?_⟩
  cases hjoins with
  | sign hneighbour => exact absurd hneighbour (by decide)
  | digit hneighbour hd =>
    cases hneighbour
    exact absurd hd (by decide)
  | point hneighbour => exact absurd hneighbour (by decide)
  | exponent hneighbour =>
    obtain ⟨mark, rest, hprefix, -⟩ := hneighbour
    exact List.cons_ne_nil _ _ (List.prefix_nil.mp hprefix)

/-- After `2.` the literal `1E+20` is read on, and instead of `1e20` there is `2.1e20`. -/
theorem simplify_merged :
    (∃ u, simplify usual ['2', '.', '(', '1', 'E', '2', '0', ')'] 2 7 ['1', 'E', '2', '0']
        ({ dice := .low } : Progress Feed) = .ok (['2', '.'] ++ literalText 1e20) u ∧ u.failed = false) ∧
      ¬Atomic ['2', '.'] (literalText 1e20) [] ∧
      ∃ e, evaluateExpression usual .low ['2', '.', '(', '1', 'E', '2', '0', ')'] =
          .ok (e, .low) ∧ e.failed = false ∧ e.value = 2.1e20 := by
  refine ⟨by decide +kernel, fun hatomic => ?_, ?_⟩
  · have hnumeral : IsNumeral (['2', '.'] ++ literalText 1e20 ++ []) := by
      unfold IsNumeral
      decide +kernel
    exact List.cons_ne_nil _ _ (hatomic _ _ List.suffix_rfl List.nil_prefix hnumeral).1
  · have h : evaluateExpression usual .low ['2', '.', '(', '1', 'E', '2', '0', ')'] =
        .ok ({ expression := ['2', '.', '(', '1', 'E', '2', '0', ')']
               value := 2.1e20
               ledger :=
                { events := [.step (.groupValue ['(', '1', 'E', '2', '0', ')'] 1e20)] } },
          .low) := by decide +kernel
    exact ⟨_, h, by decide +kernel, rfl⟩

end Reckoner

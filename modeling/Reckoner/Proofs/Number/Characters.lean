import Reckoner.Proofs.Number.Literal

/-!
# The characters of written numbers

Whatever the layout, a number is written with the ten digits and a few marks: the point, the
signs, the mark of the exponent, and the letters of `inf` and `nan`.
-/

namespace Reckoner

/-- What a written number has besides digits. -/
def numberMarks : List Char := ['.', '-', '+', 'e', 'i', 'n', 'f', 'a']

/-- A text of digits and of marks of numbers. -/
def IsFigures (t : Text) : Prop := ∀ c ∈ t, c.isDigit = true ∨ c ∈ numberMarks

namespace IsFigures

variable {s t : Text}

theorem of_digits (h : ∀ c ∈ t, c.isDigit = true) : IsFigures t := fun c hc => .inl (h c hc)

theorem of_marks (h : ∀ c ∈ t, c ∈ numberMarks) : IsFigures t := fun c hc => .inr (h c hc)

theorem append (hs : IsFigures s) (ht : IsFigures t) : IsFigures (s ++ t) :=
  fun c hc => (List.mem_append.mp hc).elim (hs c) (ht c)

theorem cons {c : Char} (hc : c ∈ numberMarks) (ht : IsFigures t) : IsFigures (c :: t) :=
  append (s := [c]) (of_marks (by simpa using hc)) ht

end IsFigures

theorem isFigures_natText (n : Nat) : IsFigures (natText n) := .of_digits isDigit_natText

theorem isFigures_intText (n : Int) : IsFigures (intText n) := by
  unfold intText
  split_ifs
  · exact .cons (by decide) (isFigures_natText _)
  · exact isFigures_natText _

namespace Decimal

theorem isFigures_positional (d : Decimal) : IsFigures d.positional := by
  unfold positional
  dsimp only
  split_ifs
  · exact (isFigures_natText _).append (.of_digits isDigit_zeros)
  · exact .append (.of_digits fun c hc => d.isDigit_padded c (List.mem_of_mem_take hc))
      (.cons (by decide) (.of_digits fun c hc => d.isDigit_padded c (List.mem_of_mem_drop hc)))

theorem isFigures_exponentText (d : Decimal) : IsFigures d.exponentText := by
  have hsign : (if d.leadingExponent < 0 then '-' else '+') ∈ numberMarks := by
    split_ifs <;> decide
  exact .cons hsign (.append (.of_digits isDigit_zeros) (isFigures_natText _))

theorem isFigures_scientific (d : Decimal) : IsFigures d.scientific := by
  have hdigits := isFigures_natText d.digits
  have hrest : ∀ {first : Char} {rest : Text}, natText d.digits = first :: rest →
      IsFigures (if rest.isEmpty then [first] else first :: '.' :: rest) := by
    intro first rest htext
    rw [htext] at hdigits
    have hfirst : IsFigures [first] := fun c hc =>
      hdigits c (List.mem_singleton.mp hc ▸ List.mem_cons_self)
    split_ifs
    · exact hfirst
    · exact hfirst.append (.cons (by decide) fun c hc => hdigits c (List.mem_cons_of_mem first hc))
  unfold scientific
  refine .append ?_ (.cons (by decide) d.isFigures_exponentText)
  split
  · next htext => exact hrest htext
  · exact .of_digits (by simp)

end Decimal

theorem isFigures_write (layout : Layout) (d : Decimal) : IsFigures (layout.write d) := by
  unfold Layout.write
  dsimp only
  split_ifs
  · exact d.isFigures_positional.append fun c hc => by
      revert c
      decide
  · exact d.isFigures_positional
  · exact d.isFigures_scientific

theorem isFigures_writeDouble (layout : Layout) (choose : Nat → Int → Decimal) (x : Float) :
    IsFigures (layout.writeDouble choose x) := by
  have hsigned : ∀ {negative : Bool} {t : Text}, IsFigures t →
      IsFigures (if negative then '-' :: t else t) := by
    intro negative t ht
    split_ifs
    · exact .cons (by decide) ht
    · exact ht
  unfold Layout.writeDouble
  dsimp only
  split
  · exact hsigned (isFigures_write _ _)
  · exact hsigned (.of_marks (by decide))
  · exact .of_marks (by decide)

theorem isFigures_shortestText (x : Float) : IsFigures (shortestText x) :=
  isFigures_writeDouble _ _ x

theorem isFigures_generalText (x : Float) : IsFigures (generalText x) :=
  isFigures_writeDouble _ _ x

theorem isFigures_displayText (x : Float) : IsFigures (displayText x) := by
  have hsign : ∀ negative : Bool, IsFigures (if negative then ['-'] else []) := by
    intro negative
    cases negative <;> exact .of_marks (by decide)
  unfold displayText
  split
  · dsimp only
    split
    · exact isFigures_intText _
    · split
      · exact (hsign _).append (Decimal.isFigures_positional _)
      · exact (hsign _).append (isFigures_write _ _)
  · exact isFigures_shortestText x

end Reckoner

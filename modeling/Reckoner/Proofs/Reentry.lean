import Reckoner.Proofs.Name
import Reckoner.Proofs.Run
import Reckoner.Proofs.Text.Scan
import Mathlib.Data.List.TakeWhile
import Mathlib.Logic.Relation

/-!
# Which texts an evaluation goes on with

An evaluation hands shorter parts of its text on to nested ones. But its text need not be the
one it was given: groups are folded first, and what stands for a group may be longer than the
group. So the texts handed on are parts of what comes of folding (`Reenters`), and a property
that neither a round of folding nor taking a part can lose is one of every text that is
evaluated on the way.
-/

namespace Reckoner

/-! ## Parts of a text -/

/-- A text that stands inside another one and is shorter. -/
structure Part (u t : Text) : Prop where
  inside : u <:+: t
  shorter : u.length < t.length

namespace Part

variable {u v t : Text}

theorem of_inside (hu : u <:+: v) (hv : Part v t) : Part u t where
  inside := hu.trans hv.inside
  shorter := hu.length_le.trans_lt hv.shorter

theorem take {n : Nat} (h : n < t.length) : Part (t.take n) t where
  inside := by
    have hprefix : t.take n <+: t := List.take_prefix n t
    exact hprefix.isInfix
  shorter := by
    rw [List.length_take]
    omega

theorem drop {n : Nat} (hn : 0 < n) (ht : 0 < t.length) : Part (t.drop n) t where
  inside := (List.drop_suffix n t).isInfix
  shorter := by
    rw [List.length_drop]
    omega

theorem dropLast (ht : t ≠ []) : Part t.dropLast t where
  inside := by
    have hprefix : t.dropLast <+: t := List.dropLast_prefix t
    exact hprefix.isInfix
  shorter := by
    have := List.length_pos_iff.mpr ht
    rw [List.length_dropLast]
    omega

end Part

/-- The first of the separated parts starts the text. -/
theorem isPrefix_of_splitTopLevelFrom {isSeparator : Char → Bool} {depth : Int} {t p : Text}
    {parts : List Text} (h : splitTopLevelFrom isSeparator depth t = p :: parts) : p <+: t := by
  induction t generalizing depth p parts with
  | nil =>
    cases h
    exact List.prefix_rfl
  | cons c t ih =>
    rw [splitTopLevelFrom] at h
    split_ifs at h
    · cases h
      exact List.nil_prefix
    · obtain ⟨q, qs, hrest⟩ :=
        List.exists_cons_of_ne_nil (splitTopLevelFrom_ne_nil (depthAfter depth c) t)
      rw [hrest, consPart] at h
      cases h
      exact (List.prefix_cons_inj c).mpr (ih hrest)

theorem isInfix_of_mem_splitTopLevelFrom {isSeparator : Char → Bool} {depth : Int} {t p : Text}
    (h : p ∈ splitTopLevelFrom isSeparator depth t) : p <:+: t := by
  induction t generalizing depth with
  | nil =>
    rw [splitTopLevelFrom, List.mem_singleton] at h
    exact h ▸ List.infix_rfl
  | cons c t ih =>
    rw [splitTopLevelFrom] at h
    split_ifs at h
    · rcases List.mem_cons.mp h with rfl | h
      · exact List.nil_infix
      · exact List.infix_cons (ih h)
    · obtain ⟨q, qs, hrest⟩ :=
        List.exists_cons_of_ne_nil (splitTopLevelFrom_ne_nil (depthAfter depth c) t)
      rw [hrest, consPart] at h
      rcases List.mem_cons.mp h with rfl | h
      · exact ((List.prefix_cons_inj c).mpr (isPrefix_of_splitTopLevelFrom hrest)).isInfix
      · exact List.infix_cons (ih (hrest ▸ List.mem_cons_of_mem q h))

/-! ## The parts that the tiers hand on -/

theorem exists_getD_of_mem_splitPoints {operators : Text} {signed : Bool} {t : Text} {point : Nat}
    (h : point ∈ splitPoints operators signed t) :
    t.getD point ' ' ∈ operators ∧ t.getD point ' ' ∈ t := by
  obtain ⟨l, c, r, rfl, rfl, -, hc⟩ := mem_splitPointsFrom_iff.mp h
  have hget : (l ++ c :: r).getD (0 + l.length) ' ' = c := by simp
  rw [hget]
  exact ⟨mem_of_isSplit hc, by simp⟩

/-- An operand is a shorter part of the text, and `d` is read as the operator only where the text
has this letter. -/
theorem part_of_mem_cuts {tier : Tier} {t : Text} {cut : Cut}
    (h : cut ∈ cuts t (splitPoints tier.symbols tier.signed t)) :
    Part cut.right t ∧ (cut.operator = .dice → 'd' ∈ t) := by
  have hcut : ∀ {points}, cut ∈ cuts t points → ∃ point ∈ points, ∃ n,
      cut.operator = .ofSymbol (t.getD point ' ') ∧ cut.right = (t.take n).drop (point + 1) := by
    intro points
    induction points with
    | nil =>
      intro h
      cases h
    | cons point points ih =>
      intro h
      rcases List.mem_cons.mp h with rfl | h
      · exact ⟨point, List.mem_cons_self, _, rfl, rfl⟩
      · obtain ⟨later, hlater, hcut⟩ := ih h
        exact ⟨later, List.mem_cons_of_mem point hlater, hcut⟩
  obtain ⟨point, hpoint, n, hoperator, hright⟩ := hcut h
  have hlength := lt_length_of_mem_splitPoints hpoint
  obtain ⟨hsymbol, hmem⟩ := exists_getD_of_mem_splitPoints hpoint
  refine ⟨?_, fun hdice => ?_⟩
  · rw [hright]
    have hfragment : t.take n <+: t := List.take_prefix n t
    refine ⟨(List.drop_suffix _ _).isInfix.trans hfragment.isInfix, ?_⟩
    rw [List.length_drop, List.length_take]
    omega
  · obtain ⟨o, -, ho⟩ := List.mem_map.mp hsymbol
    have hd : o = .dice := by rw [← hdice, hoperator, ← ho, Operator.ofSymbol_symbol]
    rw [← ho, hd] at hmem
    exact hmem

/-! ## The parts that calls hand on -/

/-- A sign and what is behind it make up the text. -/
theorem sign_append_takeNegative (t : Text) :
    (if (takeNegative t).1 then [negativeMark] else []) ++ (takeNegative t).2 = t := by
  cases t with
  | nil => rfl
  | cons c t =>
    rw [takeNegative]
    by_cases hmark : (c == negativeMark) = true
    · rw [if_pos hmark, eq_of_beq hmark]
      rfl
    · rw [if_neg hmark]
      rfl

/-- A multiplier and what is behind it make up the text. -/
theorem multiplier_append (t : Text) : (takeMultiplier t).1 ++ (takeMultiplier t).2 = t := by
  have hsign := sign_append_takeNegative t
  unfold takeMultiplier
  dsimp only
  split
  · next n rest hscan =>
    rw [← Numeral.scan_append hscan] at hsign
    split_ifs at hsign ⊢ <;> exact hsign
  · rfl

theorem isSuffix_takeMultiplier (t : Text) : (takeMultiplier t).2 <:+ t := ⟨_, multiplier_append t⟩

/-- Behind a name stands a shorter part of the text. -/
theorem part_of_startsName {name : String} {t : Text} (hname : name.toList ≠ [])
    (h : startsName (takeMultiplier t).2.lowered name = true) :
    Part ((takeMultiplier t).2.drop name.length) t := by
  have hcallee : 0 < (takeMultiplier t).2.length := by
    refine List.length_pos_iff.mpr fun hnil => ?_
    rw [startsName, hnil, Text.lowered, List.flatMap_nil] at h
    exact hname (List.isEmpty_iff.mp (by simpa using h))
  have hlength : 0 < name.length := by
    rw [← String.length_toList]
    exact List.length_pos_iff.mpr hname
  have hpart := Part.drop hlength hcallee
  have hsuffix := isSuffix_takeMultiplier t
  exact ⟨hpart.inside.trans hsuffix.isInfix, hpart.shorter.trans_le hsuffix.length_le⟩

theorem part_of_findListFunction {t : Text} {f : ListFunction}
    (h : findListFunction (takeMultiplier t).2 = some f) :
    Part ((takeMultiplier t).2.drop f.name.length) t := by
  obtain ⟨hmem, hstarts⟩ := mem_of_findListFunction h
  exact part_of_startsName (listName_ne_nil f hmem) hstarts

theorem part_of_findUnaryFunction {t : Text} {f : UnaryFunction}
    (h : findUnaryFunction (takeMultiplier t).2 = some f) :
    Part ((takeMultiplier t).2.drop f.name.length) t := by
  obtain ⟨hmem, hstarts⟩ := mem_of_findUnaryFunction h
  exact part_of_startsName (unaryName_ne_nil f hmem) hstarts

/-- The arguments of a call stand inside the list. -/
theorem isInfix_of_mem_bracketedList {argument piece : Text} {pieces : List Text}
    (h : bracketedList? argument = some pieces) (hpiece : piece ∈ pieces) :
    piece <:+: argument := by
  unfold bracketedList? at h
  split_ifs at h
  cases h
  have hbody : (argument.drop 1).dropLast <+: argument.drop 1 := List.dropLast_prefix _
  exact (isInfix_of_mem_splitTopLevelFrom hpiece).trans
    (hbody.isInfix.trans (List.drop_suffix 1 argument).isInfix)

/-- In front of a constant stands a shorter part of the text. -/
theorem part_of_findConstant {t : Text} {k : Constant} (h : findConstant t = some k) :
    Part (t.take (t.length - k.name.length)) t := by
  obtain ⟨hmem, hends⟩ := mem_of_findConstant h
  have hname := List.length_pos_iff.mpr (constantName_ne_nil k hmem)
  have hlength := hends.length_le
  rw [String.length_toList] at hname hlength
  exact .take (by omega)

/-- What a text hands on once its groups are folded: a part of it to a tier, or an argument of
one of its calls to be evaluated as a whole. -/
inductive HandsOn (t : Text) : Entry → Text → Prop where
  | part {entry : Entry} {u : Text} (hentry : entry ≠ .whole) (hu : Part u t) : HandsOn t entry u
  | piece {argument piece : Text} {pieces : List Text} (hargument : Part argument t)
    (hpieces : bracketedList? argument = some pieces) (hpiece : piece ∈ pieces) :
    HandsOn t .whole piece

theorem HandsOn.part_of {t u : Text} {entry : Entry} (h : HandsOn t entry u) : Part u t := by
  cases h with
  | part _ hu => exact hu
  | piece hargument hpieces hpiece =>
    exact .of_inside (isInfix_of_mem_bracketedList hpieces hpiece) hargument

namespace Eval

/-! ## Finding the innermost group -/

/-- A text without round brackets. -/
def Flat (t : Text) : Prop := '(' ∉ t ∧ ')' ∉ t

theorem flat_append {s t : Text} : Flat (s ++ t) ↔ Flat s ∧ Flat t := by
  simp only [Flat, List.mem_append, not_or]
  tauto

/-- The depth after a text without round brackets is told by the square ones. -/
theorem Flat.depthOver_eq {t : Text} (h : Flat t) :
    depthOver 0 t = (t.count '[' : Int) - t.count ']' := by
  have hopeners : t.countP isOpener = t.count '[' := by
    refine List.countP_congr fun c hc => ?_
    have hne : c ≠ '(' := ne_of_mem_of_not_mem hc h.1
    simp [isOpener, hne]
  have hclosers : t.countP isCloser = t.count ']' := by
    refine List.countP_congr fun c hc => ?_
    have hne : c ≠ ')' := ne_of_mem_of_not_mem hc h.2
    simp [isCloser, hne]
  have hcounts := depthOver_add_countP 0 t
  rw [hopeners, hclosers] at hcounts
  omega

theorem bne_of_not_mem {t : Text} {a : Char} (h : a ∉ t) : ∀ c ∈ t, (c != a) = true :=
  fun _ hc => bne_iff_ne.mpr (ne_of_mem_of_not_mem hc h)

theorem splitAtCloser_append {head : Text} (h : ')' ∉ head) (after : Text) :
    splitAtCloser (head ++ ')' :: after) = some (head, after) := by
  have hall := bne_of_not_mem h
  rw [splitAtCloser, List.dropWhile_append_of_pos hall, List.takeWhile_append_of_pos hall]
  simp

theorem splitAtLastOpener_append (before : Text) {inner : Text} (h : '(' ∉ inner) :
    splitAtLastOpener (before ++ '(' :: inner) = some (before, inner) := by
  have hall := bne_of_not_mem (mt List.mem_reverse.mp h)
  have hreverse : (before ++ '(' :: inner).reverse = inner.reverse ++ '(' :: before.reverse := by
    simp
  rw [splitAtLastOpener, hreverse, List.dropWhile_append_of_pos hall,
    List.takeWhile_append_of_pos hall]
  simp

theorem exists_eq_append_closer {t : Text} (h : ')' ∈ t) :
    ∃ head after, t = head ++ ')' :: after ∧ ')' ∉ head := by
  induction t with
  | nil => cases h
  | cons c t ih =>
    by_cases hc : c = ')'
    · exact ⟨[], t, by rw [hc]; rfl, by simp⟩
    · obtain ⟨head, after, ht, hhead⟩ := ih ((List.mem_cons.mp h).resolve_left (Ne.symm hc))
      refine ⟨c :: head, after, by rw [ht]; rfl, ?_⟩
      simp [hhead, Ne.symm hc]

theorem exists_eq_append_opener {t : Text} (h : '(' ∈ t) :
    ∃ before inner, t = before ++ '(' :: inner ∧ '(' ∉ inner := by
  induction t with
  | nil => cases h
  | cons c t ih =>
    by_cases ht : '(' ∈ t
    · obtain ⟨before, inner, rfl, hinner⟩ := ih ht
      exact ⟨c :: before, inner, rfl, hinner⟩
    · have hc : c = '(' := ((List.mem_cons.mp h).resolve_right ht).symm
      exact ⟨[], t, by rw [hc]; rfl, ht⟩

theorem splitAtCloser_of_not_mem {t : Text} (h : ')' ∉ t) : splitAtCloser t = none := by
  have hdrop : t.dropWhile (· != ')') = [] := List.dropWhile_eq_nil_iff.mpr (bne_of_not_mem h)
  rw [splitAtCloser, hdrop]

theorem splitAtLastOpener_of_not_mem {t : Text} (h : '(' ∉ t) : splitAtLastOpener t = none := by
  have hdrop : t.reverse.dropWhile (· != '(') = [] :=
    List.dropWhile_eq_nil_iff.mpr (bne_of_not_mem (mt List.mem_reverse.mp h))
  rw [splitAtLastOpener, hdrop]

theorem eq_of_splitAtCloser {t head after : Text} (h : splitAtCloser t = some (head, after)) :
    t = head ++ ')' :: after := by
  by_cases hmem : ')' ∈ t
  · obtain ⟨head', after', rfl, hhead⟩ := exists_eq_append_closer hmem
    rw [splitAtCloser_append hhead] at h
    cases h
    rfl
  · rw [splitAtCloser_of_not_mem hmem] at h
    cases h

theorem eq_of_splitAtLastOpener {t before inner : Text}
    (h : splitAtLastOpener t = some (before, inner)) : t = before ++ '(' :: inner := by
  by_cases hmem : '(' ∈ t
  · obtain ⟨before', inner', rfl, hinner⟩ := exists_eq_append_opener hmem
    rw [splitAtLastOpener_append before' hinner] at h
    cases h
    rfl
  · rw [splitAtLastOpener_of_not_mem hmem] at h
    cases h

/-! ## What a round puts in the place of a group -/

/-- A list of arguments in square brackets. -/
def bracketed (arguments : List Text) : Text := '[' :: Text.join [';'] arguments ++ [']']

/-- The text that stands for a value between its neighbours. -/
def valueText (before : Text) (value : Float) (after : Text) : Text :=
  timesBeside before.getLast? ++ literalText value ++ timesBeside after.head?

/-- One round of folding, whatever the value of the group. -/
inductive Folded : Text → Text → Prop where
  | listed (before inner after : Text) :
    Folded (before ++ '(' :: (inner ++ ')' :: after))
      (before ++ bracketed (splitTopLevel (· == ',') inner) ++ after)
  | valued (before inner after : Text) {x : Float} (hx : x.isFinite = true) :
    Folded (before ++ '(' :: (inner ++ ')' :: after)) (before ++ valueText before x after ++ after)

/-- Round after round of folding. -/
abbrev FoldsTo : Text → Text → Prop := Relation.ReflTransGen Folded

/-- The texts that the evaluation of a text may go on with. -/
def Reenters (t u : Text) : Prop := ∃ folded, FoldsTo t folded ∧ Part u folded

theorem Reenters.of_part {t u : Text} (h : Part u t) : Reenters t u := ⟨t, .refl, h⟩

theorem Reenters.of_folds {t t' u : Text} (ht : FoldsTo t t') (h : Reenters t' u) :
    Reenters t u := by
  obtain ⟨folded, hfolds, hu⟩ := h
  exact ⟨folded, ht.trans hfolds, hu⟩

/-- The contents of a group are a shorter part of the text. -/
theorem part_of_group (before inner after : Text) :
    Part inner (before ++ '(' :: (inner ++ ')' :: after)) where
  inside := ⟨before ++ ['('], ')' :: after, by simp⟩
  shorter := by
    simp only [List.length_append, List.length_cons]
    omega

/-- What a round of folding keeps is kept by all of them. -/
theorem FoldsTo.keeps {P : Text → Prop} (hfolded : ∀ {t t'}, Folded t t' → P t → P t')
    {t folded : Text} (h : FoldsTo t folded) (ht : P t) : P folded := by
  induction h with
  | refl => exact ht
  | tail _ hround ih => exact hfolded hround ih

/-- What a round of folding keeps, and every part has, is true of every text that the
evaluation goes on with. -/
theorem Reenters.keeps {P : Text → Prop} (hfolded : ∀ {t t'}, Folded t t' → P t → P t')
    (hpart : ∀ {u t}, Part u t → P t → P u) {t u : Text} (h : Reenters t u) (ht : P t) : P u := by
  obtain ⟨folded, hfolds, hu⟩ := h
  exact hpart hu (hfolds.keeps hfolded ht)

/-! ## Answers of the folding -/

variable {σ α β : Type} {stack : Stack}

/-- A step can answer with this value. -/
def Answers (m : Eval σ α stack) (a : α) : Prop := ∃ s t, m s = .ok a t

theorem answers_pure {a b : α} (h : Answers (pure a : Eval σ α stack) b) : b = a := by
  obtain ⟨s, t, h⟩ := h
  cases h
  rfl

theorem answers_bind {m : Eval σ α stack} {k : α → Eval σ β stack} {b : β} (h : Answers (m >>= k) b) :
    ∃ a, Answers m a ∧ Answers (k a) b := by
  obtain ⟨s, u, h⟩ := h
  obtain ⟨a, t, h1, h2⟩ := bind_eq_ok.mp h
  exact ⟨a, ⟨s, t, h1⟩, ⟨t, u, h2⟩⟩

theorem answers_refuseAt {site : Site} {p : Problem} {t : Text}
    (h : Answers (refuseAt site p : Eval σ Text stack) t) : t = site.whole := by
  obtain ⟨-, -, h⟩ := answers_bind h
  exact answers_pure h

variable {recur : Recur σ stack}

/-- A round leaves the text as it is, or folds it. -/
theorem answers_foldGroup {before inner after folded : Text}
    (h : Answers (foldGroup recur (.between before inner after) inner) folded) :
    folded = before ++ '(' :: (inner ++ ')' :: after) ∨
      Folded (before ++ '(' :: (inner ++ ')' :: after)) folded := by
  have hwhole : (Site.between before inner after).whole =
      before ++ '(' :: (inner ++ ')' :: after) := by
    simp [Site.between]
  unfold foldGroup at h
  dsimp only at h
  split_ifs at h
  · exact .inl ((answers_refuseAt h).trans hwhole)
  · exact .inl ((answers_refuseAt h).trans hwhole)
  · obtain ⟨-, -, h⟩ := answers_bind h
    rw [answers_pure h]
    exact .inr (.listed before inner after)
  · obtain ⟨value, -, h⟩ := answers_bind h
    obtain ⟨isFailed, -, h⟩ := answers_bind h
    split_ifs at h with hfailed hfinite
    · exact .inl ((answers_pure h).trans hwhole)
    · exact .inl ((answers_refuseAt h).trans hwhole)
    · rw [insertValue_between] at h
      obtain ⟨-, -, h⟩ := answers_bind h
      rw [answers_pure h]
      exact .inr (.valued before inner after (by simpa using hfinite))

theorem answers_foldGroups {rounds : Nat} {t flat : Text}
    (h : Answers (foldGroups recur rounds t) flat) : FoldsTo t flat := by
  induction rounds generalizing t with
  | zero =>
    rw [answers_pure h]
  | succ rounds ih =>
    rw [foldGroups] at h
    obtain ⟨isFailed, -, h⟩ := answers_bind h
    split_ifs at h
    · rw [answers_pure h]
    · split at h
      · rw [answers_pure h]
      · next head after hcloser =>
        split at h
        · obtain ⟨-, -, h⟩ := answers_bind h
          rw [answers_pure h]
        · next before inner hopener =>
          obtain ⟨folded, hround, h⟩ := answers_bind h
          have ht : t = before ++ '(' :: (inner ++ ')' :: after) := by
            rw [eq_of_splitAtCloser hcloser, eq_of_splitAtLastOpener hopener]
            simp
          rcases answers_foldGroup hround with rfl | hfolded
          · exact ht ▸ ih h
          · exact .head (ht ▸ hfolded) (ih h)

theorem answers_resolveGroups {t flat : Text} (h : Answers (resolveGroups recur t) flat) :
    FoldsTo t flat := by
  by_cases hround : t.count '(' = t.count ')'
  · rw [resolveGroups_of_even hround] at h
    split_ifs at h
    · exact answers_foldGroups h
    · obtain ⟨-, -, h⟩ := answers_bind h
      rw [answers_pure h]
  · rw [resolveGroups_of_uneven hround] at h
    split_ifs at h
    · obtain ⟨-, -, h⟩ := answers_bind h
      rw [answers_pure h]
    · obtain ⟨-, -, h⟩ := answers_bind h
      obtain ⟨-, -, h⟩ := answers_bind h
      rw [answers_pure h]

end Eval

end Reckoner

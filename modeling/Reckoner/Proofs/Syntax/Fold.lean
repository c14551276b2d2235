import Reckoner.Proofs.Syntax.Reading

/-!
# Folding the groups of a tree

The first `)` of a text belongs to an innermost group, and once its contents hold no group they
are the flat text of a tree, which nested evaluation reads as that tree. So the rounds replace
the printed tree by its flat text, in whatever text it stands, or end with a problem; and if all
values in the tree are finite they do so exactly if there are too few levels.
-/

namespace Reckoner

open Eval

variable {σ : Type} {setting : Setting σ} {recur : Recur σ} {levels : Nat}

/-! ## Rounds -/

/-- From a state without problems, so many rounds either bring a text to what is `left` of it,
or they end with a problem; where all is fine it depends on whether there are `enough` levels. -/
inductive Folds (recur : Recur σ) (fine enough settled : Prop) (rounds more : Nat)
    (text left : Text) (s : Progress σ) : Prop where
  | done (u : Progress σ)
    (hrun : foldGroups recur (rounds + more) text s = foldGroups recur more left u)
    (hunrolled : Unrolled s u) (hclear : u.failed = false) (henough : fine → enough)
    (hsettled : settled)
  | stopped (folded : Text) (u : Progress σ)
    (hrun : foldGroups recur (rounds + more) text s = .ok folded u) (hunrolled : Unrolled s u)
    (hfailed : u.failed = true) (hlacking : fine → ¬enough)

namespace Folds

variable {fine fine' enough enough' settled settled' : Prop} {rounds rounds' more : Nat}
  {text mid left : Text} {s : Progress σ}

theorem refl (hs : s.failed = false) (henough : enough) (hsettled : settled) :
    Folds recur fine enough settled 0 more text text s :=
  .done s (by rw [Nat.zero_add]) (.refl s) hs (fun _ => henough) hsettled

theorem mono (h : Folds recur fine enough settled rounds more text left s) (hfine : fine' → fine)
    (henough : enough ↔ enough') (hsettled : settled → settled') :
    Folds recur fine' enough' settled' rounds more text left s := by
  cases h with
  | done u hrun hunrolled hclear h hs =>
    exact .done u hrun hunrolled hclear (fun hf => henough.mp (h (hfine hf))) (hsettled hs)
  | stopped folded u hrun hunrolled hfailed hlacking =>
    exact .stopped folded u hrun hunrolled hfailed fun hf h => hlacking (hfine hf) (henough.mpr h)

/-- More rounds go on from what the first have left. -/
theorem trans (h : Folds recur fine enough settled rounds (rounds' + more) text mid s)
    (hnext : ∀ {u : Progress σ}, u.failed = false → settled →
      Folds recur fine enough' settled' rounds' more mid left u) :
    Folds recur fine (enough ∧ enough') (settled ∧ settled') (rounds + rounds') more text left s := by
  cases h with
  | stopped folded u hrun hunrolled hfailed hlacking =>
    exact .stopped folded u (by rw [Nat.add_assoc, hrun]) hunrolled hfailed
      fun hf h => hlacking hf h.1
  | done u hrun hunrolled hclear henough hsettled =>
    rw [← Nat.add_assoc] at hrun
    cases hnext hclear hsettled with
    | done v hrun' hunrolled' hclear' henough' hsettled' =>
      exact .done v (hrun.trans hrun') (hunrolled.trans hunrolled') hclear'
        (fun hf => ⟨henough hf, henough' hf⟩) ⟨hsettled, hsettled'⟩
    | stopped folded v hrun' hunrolled' hfailed hlacking =>
      exact .stopped folded v (hrun.trans hrun') (hunrolled.trans hunrolled') hfailed
        fun hf h => hlacking hf h.2

end Folds

/-! ## Contexts -/

/-- A place where the groups of a text can be folded first: nothing closes a group before it,
and no digit stands next to it. -/
structure Context (pre post : Text) : Prop where
  closer : ')' ∉ pre
  left : timesBeside pre.getLast? = []
  right : timesBeside post.head? = []

namespace Context

variable {pre post : Text}

/-- Behind more text without a `)`, as long as it ends in no digit. -/
theorem behind (h : Context pre post) {t : Text} (ht : ')' ∉ t)
    (hlast : ∀ c ∈ t.getLast?, isDigitLike c = false) : Context (pre ++ t) post := by
  refine ⟨by simp [h.closer, ht], ?_, h.right⟩
  cases t using List.reverseRecOn with
  | nil => simpa using h.left
  | append_singleton t c =>
    have hc := hlast c (by simp)
    rw [← List.append_assoc, List.getLast?_concat, timesBeside]
    simp [hc]

/-- Before other text, as long as it starts with no digit. -/
theorem before (h : Context pre post) {c : Char} (hplain : isDigitLike c = false) (t : Text) :
    Context pre (c :: t) := by
  refine ⟨h.closer, h.left, ?_⟩
  simp [timesBeside, hplain]

/-- Inside of the brackets of a group. -/
theorem inside (h : Context pre post) : Context (pre ++ ['(']) (')' :: post) := by
  have hplain : ∀ c ∈ ['('].getLast?, isDigitLike c = false := by
    rintro c ⟨⟩
    decide
  exact (h.behind (by decide) hplain).before (by decide) post

/-- With no digit beside it a value is not multiplied. -/
theorem valueText_eq (h : Context pre post) (x : Float) : valueText pre x post = literalText x := by
  rw [valueText, h.left, h.right, List.nil_append, List.append_nil]

end Context

theorem isDigitLike_symbol (o : Operator) : isDigitLike o.symbol = false := by cases o <;> decide

theorem symbol_ne_closer (o : Operator) : o.symbol ≠ ')' := by cases o <;> decide

/-! ## The round of a group -/

namespace Tree

theorem flat_flatText {t : Tree} (hwf : t.WellFormed) (hs : t.Settled) : Flat t.flatText :=
  have h := (sealed_true hwf hs).count_eq
  ⟨h.1, h.2.1⟩

theorem covers_comma : Covers (fun c => (c == ',') = false) 0 where
  number c hc := beq_false_of_ne (ne_of_isNumberChar hc (by decide) (by decide))
  name := by decide
  mark := by decide
  operator o _ := by cases o <;> decide

end Tree

/-- The value of a tree takes the place of the group that the tree is in. -/
theorem folds_value (hr : Reads levels recur) {t : Tree} (hwf : t.WellFormed) (hs : t.Settled)
    {pre post : Text} (hcontext : Context pre post) (more : Nat) {s : Progress σ}
    (hclear : s.failed = false) :
    Folds recur t.AllFinite (t.reading < levels) t.HasFinite 1 more
      (pre ++ '(' :: (t.flatText ++ ')' :: post))
      (pre ++ t.literal ++ post) s := by
  have hsingle : ¬1 < (splitTopLevel (· == ',') t.flatText).length := by
    have hsealed := Tree.sealed_flatText Tree.covers_comma hwf hs (Tree.level_pos _)
    rw [hsealed.onePart.splitTopLevel_eq]
    exact Nat.lt_irrefl 1
  obtain ⟨x, u, hrun, hunrolled, hvalue, hwanted⟩ := hr.agrees .whole t hwf hs trivial hclear
  have hround := @foldGroups_succ σ recur s pre t.flatText hcontext.closer
    (Tree.flat_flatText hwf hs) post more hclear
  have hidle : ∀ {v : Progress σ} (text : Text), v.failed = true →
      ∃ folded, foldGroups recur more text v = .ok folded v := by
    intro v text hv
    obtain ⟨folded, h, -⟩ := (stops_foldGroups hr.stops more text).idle hv
    exact ⟨folded, h⟩
  have hfold := @foldGroup_value σ recur s pre t.flatText post (Tree.flatText_ne_nil hwf hs)
    hsingle u x hrun
  cases hu : u.failed with
  | true =>
    rw [hu, if_pos rfl] at hfold
    obtain ⟨folded, h⟩ := hidle (Site.between pre t.flatText post).whole hu
    refine .stopped folded u ?_ hunrolled hu fun hfine henough => ?_
    · rw [Nat.add_comm, hround, bind_of_ok hfold, h]
    · cases hu.symm.trans ((hwanted hfine).mpr henough)
  | false =>
    have hdenote := hvalue hu
    rw [hu, if_neg Bool.false_ne_true] at hfold
    cases hfinite : x.isFinite with
    | false =>
      rw [hfinite, Bool.not_false, if_pos rfl] at hfold
      have hproblem := u.failed_add_problem (.tooLarge ('(' :: t.flatText ++ [')']))
      obtain ⟨folded, h⟩ := hidle (Site.between pre t.flatText post).whole hproblem
      refine .stopped folded (u.add _) ?_ (hunrolled.trans (.add u rfl)) hproblem fun hfine _ => ?_
      · rw [Nat.add_comm, hround, bind_of_ok hfold, h]
      · obtain ⟨y, hy, hyfinite⟩ := hfine.hasFinite
        rw [hdenote] at hy
        cases hy
        rw [hfinite] at hyfinite
        cases hyfinite
    | true =>
      rw [hfinite, Bool.not_true, if_neg Bool.false_ne_true, hcontext.valueText_eq] at hfold
      refine .done (u.add (.step (valueStep t.flatText x))) ?_ (hunrolled.trans (.add u rfl))
        ((u.failed_add_step _).trans hu) (fun hfine => (hwanted hfine).mp hu) ⟨x, hdenote, hfinite⟩
      rw [Nat.add_comm, hround, bind_of_ok hfold, Tree.literal_of_denote hdenote]

/-- A list of arguments changes its brackets and separators. -/
theorem folds_list {ts : List Tree} (hwf : ∀ t ∈ ts, t.WellFormed)
    (hs : ∀ t ∈ ts, t.Settled) (hlength : 1 < ts.length) {fine : Prop}
    {pre post : Text} (hcontext : Context pre post) (more : Nat) {s : Progress σ}
    (hclear : s.failed = false) :
    Folds recur fine True True 1 more
      (pre ++ '(' :: (Text.join [','] (ts.map Tree.flatText) ++ ')' :: post))
      (pre ++ bracketed (ts.map Tree.flatText) ++ post) s := by
  have hsealed : ∀ p ∈ ts.map Tree.flatText, Sealed (fun c => (c == ',') = false) p := by
    intro p hp
    obtain ⟨t, ht, rfl⟩ := List.mem_map.mp hp
    exact Tree.sealed_flatText Tree.covers_comma (hwf t ht) (hs t ht) (Tree.level_pos _)
  have hne : ts.map Tree.flatText ≠ [] := by
    intro h
    rw [List.map_eq_nil_iff.mp h] at hlength
    cases hlength
  have hparts : splitTopLevel (· == ',') (Text.join [','] (ts.map Tree.flatText)) =
      ts.map Tree.flatText := splitTopLevel_join rfl rfl hne hsealed
  have hjoin : Sealed (fun _ => True) (Text.join [','] (ts.map Tree.flatText)) :=
    Tree.sealed_join rfl trivial fun p hp => (hsealed p hp).mono fun _ _ => trivial
  obtain ⟨hopen, hclose, -⟩ := hjoin.count_eq
  have hempty : Text.join [','] (ts.map Tree.flatText) ≠ [] := by
    intro h
    rw [h] at hparts
    rw [← List.length_map (f := Tree.flatText), ← hparts] at hlength
    exact absurd hlength (by decide)
  have hany := Tree.any_isEmpty_flatTexts hwf hs
  have hfold := @foldGroup_list σ recur s
    (.between pre (Text.join [','] (ts.map Tree.flatText)) post) _ hempty
    (by rw [hparts, List.length_map]; exact hlength) (by rw [hparts]; exact hany)
  refine .done (s.add (.step (listStep (Text.join [','] (ts.map Tree.flatText))))) ?_ (.add s rfl)
    ((s.failed_add_step _).trans hclear) (fun _ => trivial) trivial
  rw [Nat.add_comm, foldGroups_succ hcontext.closer ⟨hopen, hclose⟩ post more hclear,
    bind_of_ok hfold, hparts]
  rfl

/-! ## Texts in place -/

/-- In whatever context a text stands, as many rounds as it has closers bring it to what is
`left` of it. -/
def FoldsInPlace (recur : Recur σ) (fine enough settled : Prop) (text left : Text) : Prop :=
  ∀ ⦃pre post : Text⦄, Context pre post → ∀ (more : Nat) ⦃s : Progress σ⦄, s.failed = false →
    Folds recur fine enough settled (text.count ')') more (pre ++ text ++ post)
      (pre ++ left ++ post) s

namespace FoldsInPlace

variable {fine fine' enough enough' settled settled' : Prop} {x x' y y' front : Text}

theorem mono (h : FoldsInPlace recur fine enough settled x x') (hfine : fine' → fine)
    (henough : enough ↔ enough') (hsettled : settled → settled') :
    FoldsInPlace recur fine' enough' settled' x x' :=
  fun _ _ hcontext more _ hclear => (h hcontext more hclear).mono hfine henough hsettled

theorem idle (h : ')' ∉ x) (henough : enough) (hsettled : settled) :
    FoldsInPlace recur fine enough settled x x := by
  intro pre post _ more s hclear
  rw [List.count_eq_zero_of_not_mem h]
  exact .refl hclear henough hsettled

/-- Two texts with a character between them are folded one after the other. -/
theorem separated {c : Char} (hplain : isDigitLike c = false) (hc : c ≠ ')')
    (hclose : settled → ')' ∉ x') (hx : FoldsInPlace recur fine enough settled x x')
    (hy : FoldsInPlace recur fine enough' settled' y y') :
    FoldsInPlace recur fine (enough ∧ enough') (settled ∧ settled') (x ++ c :: y) (x' ++ c :: y') := by
  intro pre post hcontext more s hclear
  have hcount : (x ++ c :: y).count ')' = x.count ')' + y.count ')' := by
    rw [List.count_append, List.count_cons_of_ne hc]
  have hfirst : ∀ u v : Text, pre ++ (u ++ c :: v) ++ post = pre ++ u ++ c :: (v ++ post) := by
    intro u v
    simp
  have hsecond : ∀ u v : Text, pre ++ u ++ c :: (v ++ post) = pre ++ (u ++ [c]) ++ v ++ post := by
    intro u v
    simp
  rw [hcount, hfirst, hfirst]
  refine (hx (hcontext.before hplain (y ++ post)) (y.count ')' + more) hclear).trans
    fun hu hs => ?_
  -- the rounds look for the first closer, so what is left of the first text must have none
  have hbehind : Context (pre ++ (x' ++ [c])) post := by
    refine hcontext.behind ?_ ?_
    · simp [hclose hs, hc.symm]
    · simp [hplain]
  rw [hsecond, hsecond]
  exact hy hbehind more hu

/-- Behind a text that has no closer and ends in no digit. -/
theorem behind (hcloser : ')' ∉ front) (hlast : ∀ c ∈ front.getLast?, isDigitLike c = false)
    (hx : FoldsInPlace recur fine enough settled x x') :
    FoldsInPlace recur fine enough settled (front ++ x) (front ++ x') := by
  intro pre post hcontext more s hclear
  have hfold := hx (hcontext.behind hcloser hlast) more hclear
  rw [List.count_append, List.count_eq_zero_of_not_mem hcloser, Nat.zero_add]
  simpa only [List.append_assoc] using hfold

/-- The contents of a group are folded first, and one round more folds the group itself. -/
theorem grouped (hx : FoldsInPlace recur fine enough settled x x')
    (hround : settled → ∀ ⦃pre post : Text⦄, Context pre post → ∀ (more : Nat) ⦃s : Progress σ⦄,
      s.failed = false →
        Folds recur fine enough' settled' 1 more (pre ++ '(' :: (x' ++ ')' :: post))
          (pre ++ y ++ post) s) :
    FoldsInPlace recur fine (enough ∧ enough') settled' ('(' :: (x ++ [')'])) y := by
  intro pre post hcontext more s hclear
  have hcount : ('(' :: (x ++ [')'])).count ')' = x.count ')' + 1 := by simp
  have htext : pre ++ '(' :: (x ++ [')']) ++ post = pre ++ ['('] ++ x ++ ')' :: post := by simp
  have hleft : pre ++ ['('] ++ x' ++ ')' :: post = pre ++ '(' :: (x' ++ ')' :: post) := by simp
  have hinner := hx hcontext.inside (1 + more) hclear
  rw [hleft] at hinner
  rw [hcount, htext]
  exact (hinner.trans fun hu hs => hround hs hcontext more hu).mono id Iff.rfl And.right

end FoldsInPlace

/-! ## Whole trees -/

/-- Wherever the printed tree stands, its groups are folded. -/
def Foldable (levels : Nat) (recur : Recur σ) (t : Tree) : Prop :=
  ∀ ⦃pre post : Text⦄, Context pre post → ∀ (more : Nat) ⦃s : Progress σ⦄, s.failed = false →
    Folds recur t.AllFinite (t.folding ≤ levels) t.Settled (t.print.count ')') more
      (pre ++ t.print ++ post) (pre ++ t.flatText ++ post) s

theorem Foldable.inPlace {t : Tree} (h : Foldable levels recur t) :
    FoldsInPlace recur t.AllFinite (t.folding ≤ levels) t.Settled t.print t.flatText := h

/-- The groups of the printed tree, and then the group that it is in. -/
theorem foldsInPlace_group (hr : Reads levels recur) {t : Tree} (hwf : t.WellFormed)
    (hfold : Foldable levels recur t) :
    FoldsInPlace recur t.AllFinite (max t.folding (t.reading + 1) ≤ levels) t.HasFinite
      ('(' :: (t.print ++ [')'])) t.literal :=
  (hfold.inPlace.grouped fun hs _ _ hcontext more _ hclear =>
    folds_value hr hwf hs hcontext more hclear).mono id max_le_iff.symm id

/-- Arguments are folded one after the other. -/
theorem foldsInPlace_arguments {ts : List Tree} (hwf : ∀ t ∈ ts, t.WellFormed)
    (hfold : ∀ t ∈ ts, Foldable levels recur t) :
    FoldsInPlace recur (∀ t ∈ ts, t.AllFinite) (∀ t ∈ ts, t.folding ≤ levels)
      (∀ t ∈ ts, t.Settled) (Text.join [','] (ts.map Tree.print))
      (Text.join [','] (ts.map Tree.flatText)) := by
  induction ts with
  | nil => exact .idle List.not_mem_nil (List.forall_mem_nil _) (List.forall_mem_nil _)
  | cons t ts ih =>
    have hfirst := (hfold t List.mem_cons_self).inPlace
    have hrest := ih (fun u hu => hwf u (List.mem_cons_of_mem t hu))
      (fun u hu => hfold u (List.mem_cons_of_mem t hu))
    have hcloser : t.Settled → ')' ∉ t.flatText := fun hs =>
      (Tree.flat_flatText (hwf t List.mem_cons_self) hs).2
    cases ts with
    | nil =>
      rw [List.map_singleton, List.map_singleton, join_singleton, join_singleton]
      exact hfirst.mono (fun h => h t List.mem_cons_self) (by rw [List.forall_mem_singleton])
        List.forall_mem_singleton.mpr
    | cons u ts =>
      have hjoin : ∀ f : Tree → Text, Text.join [','] ((t :: u :: ts).map f) =
          f t ++ ',' :: Text.join [','] ((u :: ts).map f) := fun f => join_cons_cons ',' _ _ _
      rw [hjoin, hjoin]
      refine (FoldsInPlace.separated (by decide) (by decide) hcloser
        (hfirst.mono (fun h : ∀ v ∈ t :: u :: ts, v.AllFinite => h t List.mem_cons_self) Iff.rfl id)
        (hrest.mono (fun h v hv => h v (List.mem_cons_of_mem t hv)) Iff.rfl id)).mono id ?_ ?_
      · exact (List.forall_mem_cons (p := fun v : Tree => v.folding ≤ levels)).symm
      · exact List.forall_mem_cons.mpr

/-- The list of several arguments. -/
theorem foldsInPlace_list {ts : List Tree} (hwf : ∀ t ∈ ts, t.WellFormed)
    (hfold : ∀ t ∈ ts, Foldable levels recur t) (hlength : 1 < ts.length) :
    FoldsInPlace recur (∀ t ∈ ts, t.AllFinite) (∀ t ∈ ts, t.folding ≤ levels)
      (∀ t ∈ ts, t.Settled) ('(' :: (Text.join [','] (ts.map Tree.print) ++ [')']))
      (bracketed (ts.map Tree.flatText)) :=
  ((foldsInPlace_arguments hwf hfold).grouped fun hs _ _ hcontext more _ hclear =>
    (folds_list hwf hs hlength hcontext more hclear).mono id Iff.rfl fun _ => hs).mono id
      (iff_of_eq (and_true _)) id

/-- Names of functions are made of letters. -/
theorem isDigitLike_callee {f : Callee} (h : f.Registered) :
    ∀ c ∈ f.name, isDigitLike c = false := by
  cases f with
  | unary f =>
    have hall : ∀ f ∈ unaryFunctions, ∀ c ∈ f.name.toList, isDigitLike c = false := by decide
    exact hall f h
  | list f =>
    have hall : ∀ f ∈ listFunctions, ∀ c ∈ f.name.toList, isDigitLike c = false := by decide
    exact hall f h

theorem closer_not_mem_optionalText {n : Option Numeral} (hn : ∀ m ∈ n, m.Regular) :
    ')' ∉ Tree.optionalText n := fun h =>
  ne_of_isNumberChar (Tree.isNumberChar_of_mem_optionalText hn ')' h) (by decide) (by decide) rfl

theorem closer_not_mem_nameText : ')' ∉ nameText := by decide

/-- A group can follow the name of a function. -/
theorem FoldsInPlace.named {fine enough settled : Prop} {x x' : Text}
    (hx : FoldsInPlace recur fine enough settled x x') {n : Option Numeral} (hn : ∀ m ∈ n, m.Regular)
    {f : Callee} (hf : f.Registered) :
    FoldsInPlace recur fine enough settled (Tree.optionalText n ++ f.name ++ x)
      (Tree.optionalText n ++ f.name ++ x') := by
  obtain ⟨c, rest, hname, -⟩ := startsWord_callee hf
  refine hx.behind ?_ fun d hd => ?_
  · rw [List.mem_append, not_or]
    exact ⟨closer_not_mem_optionalText hn, fun h =>
      closer_not_mem_nameText (Callee.mem_nameText hf _ h)⟩
  · rw [List.getLast?_append_of_ne_nil _ (by rw [hname]; exact List.cons_ne_nil c rest)] at hd
    exact isDigitLike_callee hf d (List.mem_of_getLast? hd)

/-- The group of a call is its only argument, or the list of all of them. -/
theorem foldable_call (hr : Reads levels recur) {n : Option Numeral} {f : Callee}
    {arguments : List Tree} (hn : ∀ m ∈ n, m.Regular) (hf : f.Registered) (hne : arguments ≠ [])
    (hwf : ∀ a ∈ arguments, a.WellFormed) (hfold : ∀ a ∈ arguments, Foldable levels recur a) :
    Foldable levels recur (.call n f arguments) := by
  have hprint : (Tree.call n f arguments).print = Tree.optionalText n ++ f.name ++
      '(' :: (Text.join [','] (arguments.map Tree.print) ++ [')']) := by
    rw [Tree.print, Tree.printAll_eq]
  unfold Foldable
  rw [hprint]
  rcases Tree.single_or_list arguments with ⟨a, rfl⟩ | hlist
  · have ha := List.mem_singleton_self a
    rw [List.map_singleton, join_singleton, Tree.folding_single]
    exact ((foldsInPlace_group hr (hwf a ha) (hfold a ha)).mono
      (fun h => h.of_argument a ha) Iff.rfl id).named hn hf
  · have hlength : 1 < arguments.length := by
      rcases arguments with - | ⟨a, - | ⟨b, rest⟩⟩
      · exact absurd rfl hne
      · exact absurd rfl (hlist a)
      · simp
    rw [Tree.flatText_list hlist, Tree.folding_list hlist]
    exact ((foldsInPlace_list hwf hfold hlength).mono Tree.AllFinite.of_argument
      Tree.foldingEach_le_iff.symm (Tree.settled_list hlist n f).mpr).named hn hf

/-- **Folding a tree.** -/
theorem foldable (hr : Reads levels recur) {t : Tree} (hwf : t.WellFormed) :
    Foldable levels recur t := by
  induction t with
  | numeral n =>
    have hcloser : ')' ∉ n.text := fun h =>
      ne_of_isNumberChar (isNumberChar_of_mem_text hwf ')' h) (by decide) (by decide) rfl
    exact FoldsInPlace.idle hcloser levels.zero_le trivial
  | constant factor c =>
    have hcloser : ')' ∉ Tree.optionalText factor ++ c.name.toList := by
      rw [List.mem_append, not_or]
      exact ⟨closer_not_mem_optionalText hwf.1, fun h =>
        closer_not_mem_nameText (Constant.mem_nameText hwf.2 _ h)⟩
    exact FoldsInPlace.idle hcloser levels.zero_le trivial
  | group t ih =>
    have ht : t.WellFormed := hwf
    exact (foldsInPlace_group hr ht (ih ht)).mono Tree.AllFinite.of_group Iff.rfl id
  | call multiplier f arguments ih =>
    obtain ⟨hmultiplier, hf, hne, hall⟩ := hwf
    rw [Tree.eachWellFormed_iff] at hall
    exact foldable_call hr hmultiplier hf hne hall fun a ha => ih a ha (hall a ha)
  | factorial t ih =>
    have hnothing : FoldsInPlace recur (Tree.factorial t).AllFinite True True [] [] :=
      .idle List.not_mem_nil trivial trivial
    have hfirst := (ih hwf.2).inPlace.mono Tree.AllFinite.of_factorial Iff.rfl id
    exact (hfirst.separated (by decide) (by decide)
      (fun hs => (Tree.flat_flatText hwf.2 hs).2) hnothing).mono id (iff_of_eq (and_true _)) And.left
  | binary o l r ihl ihr =>
    obtain ⟨-, ⟨-, hl⟩, -, hr'⟩ := hwf
    have hfirst : FoldsInPlace recur (Tree.binary o l r).AllFinite (l.folding ≤ levels) l.Settled
        l.print l.flatText := (ihl hl).inPlace.mono Tree.AllFinite.of_left Iff.rfl id
    have hsecond : FoldsInPlace recur (Tree.binary o l r).AllFinite (r.folding ≤ levels) r.Settled
        r.print r.flatText := (ihr hr').inPlace.mono Tree.AllFinite.of_right Iff.rfl id
    exact (hfirst.separated (isDigitLike_symbol o) (symbol_ne_closer o)
      (fun hs => (Tree.flat_flatText hl hs).2) hsecond).mono id max_le_iff.symm id
  | signed negative t ih =>
    have hnothing : FoldsInPlace recur (Tree.signed negative t).AllFinite True True [] [] :=
      .idle List.not_mem_nil trivial trivial
    have hsecond : FoldsInPlace recur (Tree.signed negative t).AllFinite (t.folding ≤ levels)
        t.Settled t.print t.flatText := (ih hwf.2).inPlace.mono Tree.AllFinite.of_signed Iff.rfl id
    exact (hnothing.separated (isDigitLike_symbol _) (symbol_ne_closer _)
      (fun _ => List.not_mem_nil) hsecond).mono id (iff_of_eq (true_and _)) And.right

end Reckoner

import Reckoner.Proofs.Insertion
import Reckoner.Proofs.Syntax.Atom

/-!
# Lists of arguments

Arguments are written twice: with commas between round brackets, as a person types them, and
with semicolons between square brackets, as a round of folding leaves them for the function
tier. The two are cut by scanners of their own. Arguments that hold neither separator outside of
brackets come out of both as they were (`call_arguments`), and a folded call is such an argument
again, so lists may stand inside of lists.
-/

namespace Reckoner

open Eval

/-! ## Arguments -/

/-- A text between separators: there is something, its square brackets match, there are no round
ones, and neither separator stands outside of brackets. -/
structure IsArgument (a : Text) : Prop where
  nonempty : a ≠ []
  sealed : Sealed (fun c => c ≠ ',' ∧ c ≠ ';') a

namespace IsArgument

variable {a : Text} {arguments : List Text}

theorem no_comma (h : IsArgument a) : Sealed (fun c => (c == ',') = false) a :=
  h.sealed.mono fun _ hc => beq_false_of_ne hc.1

theorem no_semicolon (h : IsArgument a) : Sealed (fun c => (c == ';') = false) a :=
  h.sealed.mono fun _ hc => beq_false_of_ne hc.2

/-- A single character that is neither a bracket nor a separator. -/
theorem singleton {c : Char} (hb : isBracket c = false) (hc : c ≠ ',' ∧ c ≠ ';') :
    IsArgument [c] :=
  ⟨List.cons_ne_nil _ _, .char hb hc .nil⟩

/-- A folded call. -/
theorem call {f : ListFunction} (hf : f ∈ listFunctions) (h : ∀ a ∈ arguments, IsArgument a) :
    IsArgument (f.name.toList ++ bracketed arguments) := by
  have hname : ∀ c ∈ f.name.toList, isBracket c = false ∧ c ≠ ',' ∧ c ≠ ';' := by
    have hall : ∀ c ∈ nameText, isBracket c = false ∧ c ≠ ',' ∧ c ≠ ';' := by decide
    exact fun c hc => hall c (Callee.mem_nameText (f := .list f) hf c hc)
  have hinner : Sealed (fun _ => True) (Text.join [';'] arguments) :=
    Tree.sealed_join rfl trivial fun a ha => (h a ha).sealed.mono fun _ _ => trivial
  refine ⟨by simp [bracketed], (Sealed.of_forall hname).append ?_⟩
  exact .bracketed hinner .nil

end IsArgument

variable {arguments : List Text}

/-- The commas that a person types are found again. -/
theorem splitTopLevel_comma (hlength : 2 ≤ arguments.length)
    (h : ∀ a ∈ arguments, IsArgument a) :
    splitTopLevel (· == ',') (Text.join [','] arguments) = arguments :=
  splitTopLevel_join rfl rfl (List.ne_nil_of_length_pos (by omega)) fun a ha => (h a ha).no_comma

/-- So are the semicolons that take their place. -/
theorem bracketedList?_arguments (hlength : 2 ≤ arguments.length)
    (h : ∀ a ∈ arguments, IsArgument a) : bracketedList? (bracketed arguments) = some arguments :=
  bracketedList?_bracketed (List.ne_nil_of_length_pos (by omega)) fun a ha => (h a ha).no_semicolon

theorem any_isEmpty_arguments (h : ∀ a ∈ arguments, IsArgument a) :
    arguments.any List.isEmpty = false := by
  rw [List.any_eq_false]
  intro a ha
  simpa using (h a ha).nonempty

/-! ## The place of a group -/

/-- What is between two positions gives way, what is around it stays. -/
theorem replaced_atPositions (before inner after replacement : Text) :
    (Site.atPositions (before ++ '(' :: (inner ++ ')' :: after)) before.length
      (before.length + inner.length + 1)).replaced replacement = before ++ replacement ++ after := by
  have hupTo : (before ++ '(' :: (inner ++ ')' :: after)).upTo before.length = before := by
    rw [Text.upTo, Text.offset, if_neg (by omega), Int.toNat_natCast, List.take_left]
  have honward : (before ++ '(' :: (inner ++ ')' :: after)).onward
      (before.length + inner.length + 1 + 1) = after := by
    have htext : before ++ '(' :: (inner ++ ')' :: after) =
        (before ++ '(' :: (inner ++ [')'])) ++ after := by simp
    have hlength : ((before.length : Int) + inner.length + 1 + 1).toNat =
        (before ++ '(' :: (inner ++ [')'])).length := by
      simp only [List.length_append, List.length_cons, List.length_nil]
      omega
    rw [Text.onward, Text.offset, if_neg (by omega), hlength, htext, List.drop_left]
  rw [Site.replaced, Site.atPositions, hupTo, honward]

/-! ## Working the arguments out -/

variable {σ : Type} {recur : Recur σ} {s u : Progress σ}

/-- There are as many values as texts. -/
theorem length_of_mapM {α β : Type} {m : α → Eval σ β} {as : List α} {bs : List β}
    (h : as.mapM m s = .ok bs u) : bs.length = as.length := by
  induction as generalizing bs s with
  | nil =>
    cases h
    rfl
  | cons a as ih =>
    rw [List.mapM_cons] at h
    obtain ⟨b, t, -, h⟩ := bind_eq_ok.mp h
    obtain ⟨rest, v, hrest, h⟩ := bind_eq_ok.mp h
    cases h
    rw [List.length_cons, List.length_cons, ih hrest]

/-- A folded call evaluates its arguments one after another, and then calls the function. -/
theorem application_arguments {f : ListFunction} (hf : f ∈ listFunctions)
    (hlength : 2 ≤ arguments.length) (h : ∀ a ∈ arguments, IsArgument a)
    (hs : s.failed = false) :
    application recur (f.name.toList ++ bracketed arguments) s =
      (do
        let xs ← arguments.mapM (recur .whole)
        unlessFailed (callList f [] xs (f.name.toList ++ bracketed arguments)) : Eval σ Float) s := by
  have hcall : application recur (f.name.toList ++ bracketed arguments) =
      unlessFailed (applyList recur f [] (bracketed arguments)
        (f.name.toList ++ bracketed arguments)) :=
    application_list (n := none) (by simp) hf (endsName_bracketed arguments)
  have hempty : (bracketed arguments).isEmpty = false := by simp [bracketed]
  rw [hcall, unlessFailed_of_not_failed hs, applyList, hempty, if_neg Bool.false_ne_true,
    bracketedList?_arguments hlength h]
  dsimp only
  rw [any_isEmpty_arguments h, if_neg Bool.false_ne_true]

/-- A wrong number of values is refused before anything else. -/
theorem callList_wrongArity {f : ListFunction} {multiplier expression : Text} {xs : List Float}
    {arity : Nat} (hf : f.arity = some arity) (hlength : xs.length ≠ arity) :
    callList f multiplier xs expression s =
      .ok 1.0 (s.add (.problem (.wrongArity f.name arity xs.length))) := by
  rw [callList, hf]
  dsimp only
  rw [if_pos (by simpa using hlength), refuse_apply]

/-- Values that the function does not take are refused before it is called. -/
theorem callList_outsideDomain {f : ListFunction} {multiplier expression : Text} {xs : List Float}
    (harity : ∀ arity ∈ f.arity, xs.length = arity) (hdomain : f.admits xs = false) :
    callList f multiplier xs expression s =
      .ok 1.0 (s.add (.problem (.listOutsideDomain f.name xs))) := by
  have hadmitted : callList.admitted f multiplier xs expression s =
      .ok 1.0 (s.add (.problem (.listOutsideDomain f.name xs))) := by
    rw [callList.admitted, hdomain, Bool.not_false, if_pos rfl, refuse_apply]
  rw [callList]
  cases hf : f.arity with
  | none => exact hadmitted
  | some arity =>
    dsimp only
    rw [if_neg (by simpa using harity arity hf)]
    exact hadmitted

/-- **Lists of arguments.** Wherever the call of a function on two arguments or more stands in a
text, folding its group puts the bracketed list in its place: one step is noted, nothing is
evaluated and no die is drawn. Where the function tier comes to the folded call without a
problem, it evaluates these arguments, all of them in their order, and looks at the number of
values and at the domain with exactly as many values. The folded call is an argument itself. -/
theorem call_arguments (setting : Setting σ) (recur : Recur σ) {f : ListFunction}
    (hf : f ∈ listFunctions) (hlength : 2 ≤ arguments.length)
    (h : ∀ a ∈ arguments, IsArgument a) :
    (∀ (front after : Text) (s : Progress σ),
      simplify setting
          (front ++ f.name.toList ++ '(' :: (Text.join [','] arguments ++ ')' :: after))
          (front ++ f.name.toList).length
          ((front ++ f.name.toList).length + (Text.join [','] arguments).length + 1)
          (Text.join [','] arguments) s =
        .ok (front ++ f.name.toList ++ bracketed arguments ++ after)
          (s.add (.step (.argumentList ('(' :: Text.join [','] arguments ++ [')'])
            (bracketed arguments))))) ∧
    (∀ s : Progress σ, s.failed = false →
      application recur (f.name.toList ++ bracketed arguments) s =
        (do
          let xs ← arguments.mapM (recur .whole)
          unlessFailed (callList f [] xs (f.name.toList ++ bracketed arguments)) : Eval σ Float) s) ∧
    (∀ (s u : Progress σ) (xs : List Float), s.failed = false →
      arguments.mapM (recur .whole) s = .ok xs u → u.failed = false →
      xs.length = arguments.length ∧
      (∀ arity ∈ f.arity, arguments.length ≠ arity →
        application recur (f.name.toList ++ bracketed arguments) s =
          .ok 1.0 (u.add (.problem (.wrongArity f.name arity arguments.length)))) ∧
      ((∀ arity ∈ f.arity, arguments.length = arity) → f.admits xs = false →
        application recur (f.name.toList ++ bracketed arguments) s =
          .ok 1.0 (u.add (.problem (.listOutsideDomain f.name xs))))) ∧
    IsArgument (f.name.toList ++ bracketed arguments) := by
  refine ⟨fun front after s => ?_, fun s hs => application_arguments hf hlength h hs,
    fun s u xs hs hxs hu => ?_, .call hf h⟩
  · have hsplit := splitTopLevel_comma hlength h
    have hempty : Text.join [','] arguments ≠ [] := by
      intro hnil
      rw [hnil] at hsplit
      rw [← hsplit] at hlength
      exact absurd hlength (by decide)
    rw [simplify, foldGroup_list hempty (by rw [hsplit]; exact hlength)
      (by rw [hsplit]; exact any_isEmpty_arguments h), replaced_atPositions, listStep, hsplit]
  · have hcount := length_of_mapM hxs
    have hrun : application recur (f.name.toList ++ bracketed arguments) s =
        callList f [] xs (f.name.toList ++ bracketed arguments) u := by
      rw [application_arguments hf hlength h hs, bind_of_ok hxs, unlessFailed_of_not_failed hu]
    rw [hrun, ← hcount]
    exact ⟨rfl, fun arity harity hne => callList_wrongArity harity hne,
      fun harity hdomain => callList_outsideDomain harity hdomain⟩

/-- A list inside of a list, and one value too many for a logarithm. -/
theorem call_arguments_nested :
    (∀ a ∈ [['2'], "max[4;8]".toList, ['3']], IsArgument a) ∧
      simplify usual "log(2,max[4;8],3)".toList 3 16 "2,max[4;8],3".toList
          ({ dice := .low } : Progress Feed) =
        .ok "log[2;max[4;8];3]".toList (Progress.add { dice := .low }
          (.step (.argumentList "(2,max[4;8],3)".toList "[2;max[4;8];3]".toList))) ∧
      ∃ u : Progress Feed, u.failed = false ∧
        application (topmost usual) "log[2;max[4;8];3]".toList { dice := .low } =
          .ok 1.0 (u.add (.problem (.wrongArity "log" 2 3))) := by
  have hdigit : ∀ c ∈ ['2', '3', '4', '8'], IsArgument [c] := by
    intro c hc
    refine .singleton ?_ ?_ <;> revert c <;> decide
  have hmax : IsArgument "max[4;8]".toList :=
    .call (f := { name := "max", transform := firstBest fun y best => best < y })
      List.mem_cons_self (show ∀ a ∈ [['4'], ['8']], IsArgument a by
        simpa using ⟨hdigit '4' (by decide), hdigit '8' (by decide)⟩)
  have harguments : ∀ a ∈ [['2'], "max[4;8]".toList, ['3']], IsArgument a := by
    simpa using ⟨hdigit '2' (by decide), hmax, hdigit '3' (by decide)⟩
  obtain ⟨hfold, -, hcall, -⟩ := call_arguments usual (topmost usual)
    (f := { name := "log", transform := logarithm, domain := logarithmDomain, arity := some 2 })
    (by simp [listFunctions]) (by decide) harguments
  have hrun : ∃ u : Progress Feed,
      [['2'], "max[4;8]".toList, ['3']].mapM (topmost usual .whole) { dice := .low } =
      .ok [2.0, 8.0, 3.0] u ∧ u.failed = false := by decide +kernel
  obtain ⟨u, hu, hclear⟩ := hrun
  exact ⟨harguments, hfold [] [] { dice := .low }, u, hclear,
    (hcall _ u _ rfl hu hclear).2.1 2 rfl (by decide)⟩

end Reckoner

import Reckoner.Proofs.Head

/-!
# Nesting of brackets

Evaluation never matches brackets of two kinds against each other: it compares their numbers,
folds round ones around whatever square ones are between them, and counts depth in one number.
What it accepts is properly nested all the same, with one exception: an argument list is put in
square brackets without a look at those inside of it. So an expression that is evaluated
without a problem is properly nested exactly if every argument list on the way is
(`evaluateExpression_nested`).
-/

namespace Reckoner

open Eval

/-! ## Properly nested texts -/

/-- The closer of an opener. -/
def closerOf (opener : Char) : Char := if opener == '(' then ')' else ']'

/-- Whether every closer matches the nearest opener that is still open, and none is left open.
The openers before the text come first, the nearest one in front. -/
def closes : List Char → Text → Bool
  | opened, [] => opened.isEmpty
  | opened, c :: t =>
    if isOpener c then closes (c :: opened) t
    else if isCloser c then
      match opened with
      | opener :: opened => closerOf opener == c && closes opened t
      | [] => false
    else closes opened t

/-- Whether the brackets of a text form a properly nested word over the two kinds. -/
def properlyNested (t : Text) : Bool := closes [] t

@[simp] theorem closes_nil (opened : List Char) : closes opened [] = opened.isEmpty := rfl

theorem closes_opener {c : Char} (hc : isOpener c = true) (opened : List Char) (t : Text) :
    closes opened (c :: t) = closes (c :: opened) t := by
  rw [isOpener, Bool.or_eq_true, beq_iff_eq, beq_iff_eq] at hc
  obtain rfl | rfl := hc <;> rfl

theorem closes_closer_nil {c : Char} (hc : isCloser c = true) (t : Text) :
    closes [] (c :: t) = false := by
  rw [isCloser, Bool.or_eq_true, beq_iff_eq, beq_iff_eq] at hc
  obtain rfl | rfl := hc <;> rfl

theorem closes_closer_cons {c : Char} (hc : isCloser c = true) (opener : Char)
    (opened : List Char) (t : Text) :
    closes (opener :: opened) (c :: t) = (closerOf opener == c && closes opened t) := by
  rw [isCloser, Bool.or_eq_true, beq_iff_eq, beq_iff_eq] at hc
  obtain rfl | rfl := hc <;> rfl

theorem closes_cons_of_not_isBracket {c : Char} (hc : isBracket c = false) (opened : List Char)
    (t : Text) : closes opened (c :: t) = closes opened t := by
  rw [isBracket, Bool.or_eq_false_iff] at hc
  rw [closes.eq_def]
  simp only [hc.1, hc.2, Bool.false_eq_true, if_false]

/-- The three cases that the equations above are for. -/
theorem isOpener_or_isCloser_or (c : Char) :
    isOpener c = true ∨ isCloser c = true ∨ isBracket c = false := by
  rw [isBracket]
  cases isOpener c <;> cases isCloser c <;> simp

/-- A text without brackets makes no difference. -/
theorem closes_append_of_not_isBracket {x : Text} (hx : ∀ c ∈ x, isBracket c = false)
    (opened : List Char) (t : Text) : closes opened (x ++ t) = closes opened t := by
  induction x with
  | nil => rfl
  | cons c x ih =>
    rw [List.cons_append, closes_cons_of_not_isBracket (hx c List.mem_cons_self),
      ih fun d hd => hx d (List.mem_cons_of_mem c hd)]

theorem properlyNested_of_not_isBracket {x : Text} (hx : ∀ c ∈ x, isBracket c = false) :
    properlyNested x = true := by
  have h := closes_append_of_not_isBracket hx [] []
  rw [List.append_nil] at h
  exact h

/-- A character of a text that closes what was open opens a bracket, closes the nearest one, or
leaves them as they are. It does so whatever else is open below, and the depth goes with the
number of open brackets. -/
theorem exists_opened_cons {opened : List Char} {c : Char} {t : Text}
    (h : closes opened (c :: t) = true) :
    ∃ now : List Char, (now.length : Int) = depthAfter opened.length c ∧
      ∀ below rest, closes (opened ++ below) (c :: rest) = closes (now ++ below) rest := by
  obtain hc | hc | hc := isOpener_or_isCloser_or c
  · refine ⟨c :: opened, ?_, fun below => closes_opener hc (opened ++ below)⟩
    rw [depthAfter_of_isOpener hc, List.length_cons, Nat.cast_succ]
  · cases opened with
    | nil =>
      rw [closes_closer_nil hc] at h
      cases h
    | cons opener opened =>
      rw [closes_closer_cons hc, Bool.and_eq_true] at h
      refine ⟨opened, ?_, fun below rest => ?_⟩
      · rw [depthAfter_of_isCloser hc, List.length_cons, Nat.cast_succ, Int.add_sub_cancel]
      · rw [List.cons_append, closes_closer_cons hc, h.1, Bool.true_and]
  · exact ⟨opened, (depthAfter_of_not_isBracket hc _).symm,
      fun below => closes_cons_of_not_isBracket hc (opened ++ below)⟩

/-- After a start of such a text some brackets are open, as many as the depth tells. -/
theorem exists_opened {opened : List Char} {l r : Text} (h : closes opened (l ++ r) = true) :
    ∃ now : List Char, (now.length : Int) = depthOver opened.length l ∧
      ∀ below rest, closes (opened ++ below) (l ++ rest) = closes (now ++ below) rest := by
  induction l generalizing opened with
  | nil => exact ⟨opened, rfl, fun _ _ => rfl⟩
  | cons c l ih =>
    obtain ⟨next, hlength, hnext⟩ := exists_opened_cons h
    have hstep := hnext [] (l ++ r)
    rw [List.append_nil, List.append_nil] at hstep
    obtain ⟨now, hdepth, hnow⟩ := ih (hstep.symm.trans h)
    refine ⟨now, ?_, fun below rest => ?_⟩
    · rw [hdepth, hlength, depthOver_cons]
    · rw [List.cons_append, hnext, hnow]

/-- After the whole of such a text no bracket is open, and the depth is zero. -/
theorem closes_ends {opened : List Char} {t : Text} (h : closes opened t = true) :
    depthOver opened.length t = 0 ∧
      ∀ below rest, closes (opened ++ below) (t ++ rest) = closes below rest := by
  obtain ⟨now, hdepth, hnow⟩ := exists_opened (r := []) (by rwa [List.append_nil])
  have hend := hnow [] []
  rw [List.append_nil, List.append_nil, List.append_nil, h, closes_nil, eq_comm,
    List.isEmpty_iff] at hend
  rw [hend] at hdepth hnow
  exact ⟨hdepth.symm, hnow⟩

/-- What a text closes of its own, it leaves alone otherwise. -/
theorem closes_append {x : Text} {inside : List Char} (hx : closes inside x = true)
    (opened : List Char) (t : Text) : closes (inside ++ opened) (x ++ t) = closes opened t :=
  (closes_ends hx).2 opened t

theorem closes_append_of_properlyNested {x : Text} (hx : properlyNested x = true)
    (opened : List Char) (t : Text) : closes opened (x ++ t) = closes opened t :=
  closes_append hx opened t

theorem properlyNested_append {x y : Text} (hx : properlyNested x = true)
    (hy : properlyNested y = true) : properlyNested (x ++ y) = true :=
  (closes_append_of_properlyNested hx [] y).trans hy

/-- A square bracket around a properly nested text. -/
theorem properlyNested_bracketed {x : Text} (hx : properlyNested x = true) :
    properlyNested ('[' :: (x ++ [']'])) = true := by
  rw [properlyNested, closes_opener (by decide), closes_append_of_properlyNested hx]
  rfl

/-- What holds behind every stack holds behind a character, and so behind a text. -/
theorem closes_cons_congr {x y : Text} {b : Bool}
    (h : ∀ opened, closes opened x = (b && closes opened y)) (c : Char) (opened : List Char) :
    closes opened (c :: x) = (b && closes opened (c :: y)) := by
  obtain hc | hc | hc := isOpener_or_isCloser_or c
  · rw [closes_opener hc, closes_opener hc]
    exact h _
  · cases opened with
    | nil => rw [closes_closer_nil hc, closes_closer_nil hc, Bool.and_false]
    | cons opener opened =>
      rw [closes_closer_cons hc, closes_closer_cons hc, h opened, Bool.and_left_comm]
  · rw [closes_cons_of_not_isBracket hc, closes_cons_of_not_isBracket hc]
    exact h _

theorem closes_append_congr {x y : Text} {b : Bool}
    (h : ∀ opened, closes opened x = (b && closes opened y)) (before : Text) (opened : List Char) :
    closes opened (before ++ x) = (b && closes opened (before ++ y)) := by
  induction before generalizing opened with
  | nil => exact h opened
  | cons c before ih => exact closes_cons_congr ih c opened

theorem closes_cons_eq {x y : Text} (h : ∀ opened, closes opened x = closes opened y) (c : Char)
    (opened : List Char) : closes opened (c :: x) = closes opened (c :: y) :=
  closes_cons_congr (fun opened => (h opened).trans (Bool.true_and _).symm) c opened

/-! ## Groups -/

theorem Eval.Flat.tail {c : Char} {t : Text} (h : Flat (c :: t)) : Flat t :=
  ⟨fun hmem => h.1 (List.mem_cons_of_mem c hmem), fun hmem => h.2 (List.mem_cons_of_mem c hmem)⟩

/-- The closing bracket of a group stops the square brackets that are open inside of it. -/
theorem closes_append_round {x : Text} (hx : Flat x) {inside : List Char}
    (hsquare : ∀ b ∈ inside, b = '[') (opened : List Char) (after : Text) :
    closes (inside ++ '(' :: opened) (x ++ ')' :: after) =
      (closes inside x && closes opened after) := by
  induction x generalizing inside with
  | nil =>
    cases inside with
    | nil => rfl
    | cons b inside =>
      -- a square bracket is open, which a round one does not close
      rw [hsquare b List.mem_cons_self]
      rfl
  | cons c x ih =>
    rw [List.cons_append]
    obtain hc | hc | hc := isOpener_or_isCloser_or c
    · rw [closes_opener hc, closes_opener hc]
      refine ih hx.tail (List.forall_mem_cons.mpr ⟨?_, hsquare⟩)
      rw [isOpener, Bool.or_eq_true, beq_iff_eq, beq_iff_eq] at hc
      exact hc.resolve_left fun h => hx.1 (h ▸ List.mem_cons_self)
    · cases inside with
      | nil =>
        -- without round brackets in the text this is a square one, and a round one is open
        rw [isCloser, Bool.or_eq_true, beq_iff_eq, beq_iff_eq] at hc
        obtain rfl := hc.resolve_left fun h => hx.2 (h ▸ List.mem_cons_self)
        rfl
      | cons b inside =>
        rw [List.cons_append, closes_closer_cons hc, closes_closer_cons hc, Bool.and_assoc,
          ih hx.tail (List.forall_mem_cons.mp hsquare).2]
    · rw [closes_cons_of_not_isBracket hc, closes_cons_of_not_isBracket hc]
      exact ih hx.tail hsquare

/-- A group without round brackets inside has to close what it opens. -/
theorem closes_group {inner : Text} (hinner : Flat inner) (after : Text) (opened : List Char) :
    closes opened ('(' :: (inner ++ ')' :: after)) =
      (properlyNested inner && closes opened after) :=
  closes_append_round hinner (List.forall_mem_nil _) opened after

theorem properlyNested_group {before inner after : Text} (hinner : Flat inner) :
    properlyNested (before ++ '(' :: (inner ++ ')' :: after)) =
      (properlyNested inner && properlyNested (before ++ after)) :=
  closes_append_congr (closes_group hinner after) before []

/-- A properly nested text can be taken out of another one. -/
theorem properlyNested_replaced {before mid after : Text} (hmid : properlyNested mid = true) :
    properlyNested (before ++ mid ++ after) = properlyNested (before ++ after) := by
  have h := closes_append_congr (b := true)
    (fun opened => (closes_append_of_properlyNested hmid opened after).trans (Bool.true_and _).symm)
    before []
  rw [Bool.true_and, ← List.append_assoc] at h
  exact h

/-! ## Lists -/

/-- Separators that are no brackets can be changed. -/
theorem closes_of_reseparated {isSeparator : Char → Bool} {a : Char} (ha : isBracket a = false)
    {t u : Text} (h : Reseparated isSeparator a t u) (opened : List Char) :
    closes opened u = closes opened t := by
  induction h generalizing opened with
  | nil => rfl
  | keep c _ ih => exact closes_cons_eq ih c opened
  | change _ hb _ ih =>
    rw [closes_cons_of_not_isBracket ha, closes_cons_of_not_isBracket hb, ih]

theorem properlyNested_join {a : Char} (ha : isBracket a = false) {parts : List Text}
    (h : ∀ p ∈ parts, properlyNested p = true) : properlyNested (Text.join [a] parts) = true := by
  refine join_of_append (P := fun t => properlyNested t = true) rfl (fun hs ht => ?_) h
  exact properlyNested_append hs ((closes_cons_of_not_isBracket ha [] _).trans ht)

/-- The list that stands for a properly nested group is properly nested. -/
theorem properlyNested_list {inner : Text} (hinner : properlyNested inner = true) :
    properlyNested (bracketed (splitTopLevel (· == ',') inner)) = true := by
  have hjoin := reseparated_join (· == ',') ';' 0 inner
  exact properlyNested_bracketed ((closes_of_reseparated (by decide) hjoin []).trans hinner)

/-- A bracketed list of properly nested arguments is properly nested. -/
theorem properlyNested_of_bracketedList {argument : Text} {pieces : List Text}
    (h : bracketedList? argument = some pieces) (hpieces : ∀ p ∈ pieces, properlyNested p = true) :
    properlyNested argument = true := by
  rw [eq_bracketed_of_bracketedList h]
  exact properlyNested_bracketed (properlyNested_join (by decide) hpieces)

/-! ## One round of folding -/

/-- A group and the list that stands for it are properly nested together, if what is noted
of the group is. -/
theorem properlyNested_listed {before inner after : Text} (hinner : Flat inner) :
    properlyNested (before ++ '(' :: (inner ++ ')' :: after)) =
      (properlyNested ('(' :: inner ++ [')']) &&
        properlyNested (before ++ bracketed (splitTopLevel (· == ',') inner) ++ after)) := by
  have hgroup : properlyNested ('(' :: inner ++ [')']) = properlyNested inner := by
    have h := @properlyNested_group [] inner [] hinner
    rwa [show properlyNested ([] ++ []) = true from rfl, Bool.and_true] at h
  rw [properlyNested_group hinner, hgroup]
  cases hinside : properlyNested inner with
  | false => rfl
  | true => rw [properlyNested_replaced (properlyNested_list hinside)]

/-- A value stands for a group that is properly nested. -/
theorem properlyNested_valued {before inner after : Text} {x : Float} (hinner : Flat inner)
    (hinside : properlyNested inner = true) (hx : x.isFinite = true) :
    properlyNested (before ++ '(' :: (inner ++ ')' :: after)) =
      properlyNested (before ++ valueText before x after ++ after) := by
  have hvalue : properlyNested (valueText before x after) = true :=
    properlyNested_of_not_isBracket (isBracket_of_mem_valueText hx)
  rw [properlyNested_group hinner, hinside, Bool.true_and, properlyNested_replaced hvalue]

theorem not_flat_group (before inner after : Text) :
    ¬Flat (before ++ '(' :: (inner ++ ')' :: after)) :=
  fun h => h.1 (List.mem_append_right before List.mem_cons_self)

theorem flat_piece {t p : Text} {isSeparator : Char → Bool} (ht : Flat t)
    (hp : p ∈ splitTopLevel isSeparator t) : Flat p :=
  ⟨fun h => ht.1 (mem_of_mem_splitTopLevelFrom hp h),
    fun h => ht.2 (mem_of_mem_splitTopLevelFrom hp h)⟩

/-! ## Derivations -/

/-- All argument lists among entries were properly nested groups. -/
def ListsNested (entries : List Event) : Prop :=
  ∀ group replacement, Event.step (.argumentList group replacement) ∈ entries →
    properlyNested group = true

@[simp] theorem listsNested_nil : ListsNested [] := fun _ _ h => nomatch h

@[simp] theorem listsNested_append {xs ys : List Event} :
    ListsNested (xs ++ ys) ↔ ListsNested xs ∧ ListsNested ys := by
  simp only [ListsNested, List.mem_append, or_imp, forall_and]

@[simp] theorem listsNested_list {group replacement : Text} {es : List Event} :
    ListsNested (.step (.argumentList group replacement) :: es) ↔
      properlyNested group = true ∧ ListsNested es := by
  simp only [ListsNested, List.mem_cons, or_imp, forall_and, Event.step.injEq,
    Step.argumentList.injEq]
  exact and_congr_left fun _ => ⟨fun h => h group replacement ⟨rfl, rfl⟩, fun h _ _ hg => hg.1 ▸ h⟩

@[simp] theorem listsNested_value {group : Text} {value : Float} {es : List Event} :
    ListsNested (.step (.groupValue group value) :: es) ↔ ListsNested es := by
  simp [ListsNested]

/-- Entries without argument lists. -/
theorem listsNested_of_forall_ne {es : List Event}
    (h : ∀ group replacement, Event.step (.argumentList group replacement) ∉ es) :
    ListsNested es :=
  fun group replacement hmem => absurd hmem (h group replacement)

theorem ListsNested.concat {es : List Event} (h : ListsNested es) {step : Step}
    (hstep : ∀ group replacement, step ≠ .argumentList group replacement) :
    ListsNested (es ++ [.step step]) := by
  refine listsNested_append.mpr ⟨h, listsNested_of_forall_ne fun group replacement hmem => ?_⟩
  cases List.mem_singleton.mp hmem
  exact hstep group replacement rfl

theorem listsNested_combined {o : Operator} {x y z : Float} {rolls : List Event}
    (h : Combined o x y z rolls) : ListsNested rolls := by
  refine listsNested_of_forall_ne fun group replacement hmem => ?_
  cases h <;> simp at hmem

/-- A text without round brackets is properly nested, and so are the argument lists on the
way. -/
def FlatNested (t : Text) (entries : List Event) : Prop :=
  Flat t → properlyNested t = true ∧ ListsNested entries

/-- How the nesting of a text that is derived depends on the argument lists on the way. -/
def Judgement.NestedBy : Judgement → List Event → Prop
  | .nested entry t _, es | .direct entry t _, es =>
    FlatNested t es ∧ (entry = .whole → (properlyNested t = true ↔ ListsNested es))
  | .side _ t _, es => FlatNested t es
  | .arguments pieces _, es =>
    (∀ p ∈ pieces, Flat p) → (∀ p ∈ pieces, properlyNested p = true) ∧ ListsNested es
  | .folds t flat, es =>
    Flat flat ∧ (Flat t → flat = t ∧ ListsNested es) ∧
      (properlyNested flat = true → (properlyNested t = true ↔ ListsNested es))

theorem properlyNested_of_isWordChar {t : Text} (h : ∀ c ∈ t, IsWordChar c) :
    properlyNested t = true :=
  properlyNested_of_not_isBracket fun c hc => isBracket_of_isWordChar (h c hc)

/-- A call adds nothing to the brackets of its argument, and no argument list. -/
theorem flatNested_call {t head argument : Text} {es : List Event} {function : String}
    {arguments : List Float} {value : Float} {fragment : Text} (ht : t = head ++ argument)
    (hhead : ∀ c ∈ head, IsWordChar c) (h : FlatNested argument es) :
    FlatNested t (es ++ [.step (.call function arguments value fragment)]) := by
  intro hflat
  rw [ht] at hflat ⊢
  obtain ⟨hnested, hlists⟩ := h (flat_append.mp hflat).2
  exact ⟨properlyNested_append (properlyNested_of_isWordChar hhead) hnested,
    hlists.concat (by simp)⟩

/-- **Argument lists decide the nesting.** Groups are cut out from the inside, and each one is
properly nested: it is noted as an argument list, or it is evaluated by itself. -/
theorem Derives.nestedBy {judgement : Judgement} {es : List Event} {ns : List Float}
    (h : Derives judgement es ns) : judgement.NestedBy es := by
  induction h with
  | nested _ ih => exact ih
  | flat ht => exact ⟨ht, fun _ => ⟨rfl, listsNested_nil⟩, fun h => iff_of_true h listsNested_nil⟩
  | listed hinner _ ih =>
    obtain ⟨hflat, -, hnested⟩ := ih
    refine ⟨hflat, fun h => absurd h (not_flat_group _ _ _), fun h => ?_⟩
    rw [listStep, listsNested_list, properlyNested_listed hinner, Bool.and_eq_true, hnested h]
  | valued hinner _ hfinite _ ihx ih =>
    -- the inside has no round brackets any more, so its own evaluation answers for it
    obtain ⟨hflat, -, hnested⟩ := ih
    obtain ⟨hinside, hlists⟩ := ihx.1 hinner
    refine ⟨hflat, fun h => absurd h (not_flat_group _ _ _), fun h => ?_⟩
    rw [properlyNested_valued hinner hinside hfinite, hnested h, listsNested_append, valueStep,
      listsNested_value, and_iff_right hlists]
  | whole _ _ ihflat ihx =>
    -- what is left after folding is properly nested, whatever was folded
    obtain ⟨hflat, hfolded, hnested⟩ := ihflat
    obtain ⟨hproper, hlists⟩ := ihx.1 hflat
    have hall := hnested hproper
    refine ⟨fun ht => ?_, fun _ => ?_⟩
    · have hfirst := (hfolded ht).2
      exact ⟨hall.mpr hfirst, listsNested_append.mpr ⟨hfirst, hlists⟩⟩
    · rw [hall, listsNested_append, and_iff_left hlists]
  | @split looser tighter tier l r c x y z es es' rolls ns ns' htiers _ hc _ _ _ hz ihx ihy =>
    refine ⟨fun ht => ?_, nofun⟩
    obtain ⟨hl, hr⟩ := flat_append.mp ht
    obtain ⟨hleft, hlists⟩ := ihx hl
    obtain ⟨hright, hlists'⟩ := ihy hr.tail
    obtain ⟨o, -, rfl⟩ := List.mem_map.mp hc
    have hnested := properlyNested_append hleft
      ((closes_cons_of_not_isBracket (isBracket_symbol o) [] r).trans hright)
    refine ⟨hnested, listsNested_append.mpr ⟨listsNested_append.mpr ⟨hlists, hlists'⟩, ?_⟩⟩
    exact (listsNested_combined hz).concat (by simp)
  | unsplit _ _ ih => exact ⟨ih.1, nofun⟩
  | missing tier => exact fun _ => ⟨rfl, listsNested_nil⟩
  | operand _ _ ih => exact ih.1
  | chain _ _ ih => exact ih.1
  | applied _ ih => exact ⟨ih.1, nofun⟩
  | factorial _ _ ih =>
    refine ⟨fun ht => ?_, nofun⟩
    obtain ⟨hnested, hlists⟩ := ih.1 (flat_append.mp ht).1
    exact ⟨properlyNested_append hnested rfl, hlists.concat (by simp)⟩
  | unary hf _ _ _ _ ih =>
    obtain ⟨head, ht, hhead, -⟩ := exists_unaryHead hf
    exact ⟨flatNested_call ht hhead ih.1, nofun⟩
  | single hf _ _ _ ih =>
    obtain ⟨head, ht, hhead, -⟩ := exists_listHead hf
    exact ⟨flatNested_call ht hhead ih.1, nofun⟩
  | list hf hpieces _ _ _ ih =>
    obtain ⟨head, ht, hhead, -⟩ := exists_listHead hf
    refine ⟨flatNested_call ht hhead fun hargument => ?_, nofun⟩
    obtain ⟨body, hbody, -, hsplit⟩ := exists_body_of_bracketedList hpieces
    have hflat : Flat body := by
      rw [hbody] at hargument
      exact (flat_append.mp hargument.tail).1
    obtain ⟨hnested, hlists⟩ := ih fun p hp => flat_piece hflat (hsplit ▸ hp)
    exact ⟨properlyNested_of_bracketedList hpieces hnested, hlists⟩
  | constant hk _ =>
    have hname := properlyNested_of_isWordChar (isWordChar_of_mem_constant hk)
    exact ⟨fun _ => ⟨hname, listsNested_nil.concat (by simp)⟩, nofun⟩
  | multiple hk _ _ ih =>
    refine ⟨fun ht => ?_, nofun⟩
    obtain ⟨hnested, hlists⟩ := ih.1 (flat_append.mp ht).1
    have hname := properlyNested_of_isWordChar (isWordChar_of_mem_constant hk)
    exact ⟨properlyNested_append hnested hname, hlists.concat (by simp)⟩
  | literal h =>
    have hnested := properlyNested_of_isWordChar (isWordChar_of_readsAs h)
    exact ⟨fun _ => ⟨hnested, listsNested_nil⟩, nofun⟩
  | nil => exact fun _ => ⟨List.forall_mem_nil _, listsNested_nil⟩
  | cons _ _ ihx ihxs =>
    intro hflat
    obtain ⟨hfirst, hrest⟩ := List.forall_mem_cons.mp hflat
    obtain ⟨hnested, hlists⟩ := ihx.1 hfirst
    obtain ⟨hnested', hlists'⟩ := ihxs hrest
    exact ⟨List.forall_mem_cons.mpr ⟨hnested, hnested'⟩, listsNested_append.mpr ⟨hlists, hlists'⟩⟩

/-! ## Whole expressions -/

theorem closes_filter {keeps : Char → Bool} (hkeeps : ∀ c, isBracket c = true → keeps c = true)
    (opened : List Char) (t : Text) : closes opened (t.filter keeps) = closes opened t := by
  induction t generalizing opened with
  | nil => rfl
  | cons c t ih =>
    by_cases hc : isBracket c = true
    · rw [List.filter_cons_of_pos (hkeeps c hc)]
      exact closes_cons_eq ih c opened
    · rw [Bool.not_eq_true] at hc
      rw [closes_cons_of_not_isBracket hc, List.filter_cons]
      split_ifs
      · rw [closes_cons_of_not_isBracket hc, ih]
      · exact ih opened

theorem properlyNested_withoutBlanks (t : Text) :
    properlyNested t.withoutBlanks = properlyNested t := by
  refine closes_filter (fun c hc => ?_) [] t
  have hbracket : c ∈ ['(', ')', '[', ']'] := by
    simpa [isBracket, isOpener, isCloser, or_assoc, or_left_comm] using hc
  have hblank : ∀ c ∈ ['(', ')', '[', ']'], (!isBlank c) = true := by decide
  exact hblank c hbracket

variable {σ : Type}

/-- **Only argument lists let brackets interleave.** An expression that is evaluated without a
problem is properly nested exactly if all groups that were noted as argument lists are. -/
theorem evaluateExpression_nested {stack : Stack} {setting : Setting σ} {dice after : σ}
    {expression : Text} {e : Evaluation}
    (h : evaluateExpression setting dice expression stack = .ok (e, after)) (he : e.failed = false) :
    properlyNested expression = true ↔ ListsNested e.ledger.events := by
  rw [← properlyNested_withoutBlanks]
  exact (derives_of_success h he).nestedBy.2 rfl

/-- The pair of round brackets inside the list does not stand in its text any more. -/
theorem evaluateExpression_nested_maximum :
    ∃ e, evaluateExpression usual .low ['m', 'a', 'x', '(', '(', '1', ')', ',', '2', ')'] =
        .ok (e, .low) ∧ e.failed = false ∧
      (properlyNested ['m', 'a', 'x', '(', '(', '1', ')', ',', '2', ')'] = true ↔
        ListsNested e.ledger.events) ∧
      ListsNested e.ledger.events := by
  have h : evaluateExpression usual .low ['m', 'a', 'x', '(', '(', '1', ')', ',', '2', ')'] =
      .ok ({ expression := ['m', 'a', 'x', '(', '(', '1', ')', ',', '2', ')']
             value := 2.0
             ledger :=
              { events := [.step (.groupValue ['(', '1', ')'] 1.0),
                  .step (.argumentList ['(', '1', '.', '0', ',', '2', ')']
                    ['[', '1', '.', '0', ';', '2', ']']),
                  .step (.call "max" [1.0, 2.0] 2.0
                    ['m', 'a', 'x', '[', '1', '.', '0', ';', '2', ']'])] } }, .low) := by
    decide +kernel
  have hnested := evaluateExpression_nested h (by decide +kernel)
  exact ⟨_, h, by decide +kernel, hnested, hnested.mp (by decide)⟩

/-- A closing round bracket between the square ones of an argument list goes unnoticed. -/
theorem evaluateExpression_interleaved :
    ∃ e, evaluateExpression usual .low
        ['m', 'a', 'x', '(', '1', ',', 'm', 'a', 'x', '[', '2', ')', ';', '3', ']'] =
        .ok (e, .low) ∧ e.failed = false ∧ e.value = 3.0 ∧
      properlyNested
        ['m', 'a', 'x', '(', '1', ',', 'm', 'a', 'x', '[', '2', ')', ';', '3', ']'] = false := by
  have h : evaluateExpression usual .low
      ['m', 'a', 'x', '(', '1', ',', 'm', 'a', 'x', '[', '2', ')', ';', '3', ']'] =
      .ok ({ expression :=
               ['m', 'a', 'x', '(', '1', ',', 'm', 'a', 'x', '[', '2', ')', ';', '3', ']']
             value := 3.0
             ledger :=
              { events := [.step (.argumentList ['(', '1', ',', 'm', 'a', 'x', '[', '2', ')']
                    ['[', '1', ';', 'm', 'a', 'x', '[', '2', ']']),
                  .step (.call "max" [2.0] 2.0 ['m', 'a', 'x', '[', '2', ']']),
                  .step (.call "max" [1.0, 2.0, 3.0] 3.0
                    ['m', 'a', 'x', '[', '1', ';', 'm', 'a', 'x', '[', '2', ']', ';', '3',
                      ']'])] } }, .low) := by decide +kernel
  exact ⟨_, h, by decide +kernel, rfl, by decide⟩

end Reckoner

import Reckoner.Proofs.Group
import Reckoner.Proofs.Kept
import Reckoner.Proofs.Wording
import Reckoner.Report

/-!
# Reports line by line

A report is put together from lines, and can be taken apart into them again. That is so because
nothing that an evaluation enters has a line break in it: the expression is evaluated without its
blanks, no round of folding brings one in, and every entry concerns the text at hand
(`concerns_of_mem_entriesMade`).
-/

namespace Reckoner

open Eval

/-! ## Folding brings in no blanks -/

theorem isBlank_of_isNumberChar {c : Char} (hc : IsNumberChar c) : isBlank c = false := by
  rcases hc with hc | hc
  · exact isBlank_of_isDecimalDigit hc
  · have hall : ∀ c ∈ ['.', 'E', '+', '-', negativeMark], isBlank c = false := by decide
    exact hall c hc

theorem Eval.Folded.blanksFrom {t t' : Text} (h : Folded t t') : BlanksFrom t t' := by
  intro c hc hblank
  rcases h.mem c hc with hmem | hmark | hnumber
  · exact hmem
  · have hall : ∀ c ∈ ['[', ';', ']', '*'], isBlank c = false := by decide
    exact absurd ((hall c hmark).symm.trans hblank) Bool.false_ne_true
  · exact absurd ((isBlank_of_isNumberChar hnumber).symm.trans hblank) Bool.false_ne_true

theorem Eval.FoldsTo.blanksFrom {t folded : Text} (h : FoldsTo t folded) : BlanksFrom t folded :=
  h.keeps (fun hround hfrom => hfrom.trans hround.blanksFrom) (.refl t)

theorem Eval.Reenters.blanksFrom {t u : Text} (h : Reenters t u) : BlanksFrom t u := by
  obtain ⟨folded, hfolds, hpart⟩ := h
  exact hfolds.blanksFrom.trans (.of_subset hpart.inside.subset)

/-! ## What an evaluation enters -/

variable {σ α : Type} {stack : Stack} {allowed : Event → Prop}

/-- A run of the evaluation makes allowed entries only, also where a fault ends it. -/
def Writes (allowed : Event → Prop) (m : Eval σ α stack) : Prop :=
  ∀ s, ∃ entries, (lastState (m s)).ledger.events = s.ledger.events ++ entries ∧
    ∀ e ∈ entries, allowed e

namespace Writes

theorem keptByEntries : KeptByEntries allowed fun s u : Progress σ stack =>
    ∃ entries, u.ledger.events = s.ledger.events ++ entries ∧ ∀ e ∈ entries, allowed e where
  refl s := ⟨[], (List.append_nil _).symm, by simp⟩
  trans := by
    rintro s t u ⟨xs, hx, hxs⟩ ⟨ys, hy, hys⟩
    refine ⟨xs ++ ys, ?_, List.forall_mem_append.mpr ⟨hxs, hys⟩⟩
    rw [hy, hx, List.append_assoc]
  raised s := ⟨[], (List.append_nil _).symm, by simp⟩
  problem s p hp := ⟨[.problem p], rfl, by simpa using hp⟩
  step s step hstep := ⟨[.step step], rfl, by simpa using hstep⟩

theorem respects : Respects allowed fun α (m _ : Eval σ α stack) => Writes allowed m :=
  keptByEntries.respects

theorem guarded {m : Eval σ Float stack} (hm : Writes allowed m) :
    Writes allowed (unlessFailed m) :=
  @Respects.unlessFailed σ σ _ _ _ _ respects m m hm

theorem nested {m : Eval σ α stack} (hm : Writes allowed m) : Writes allowed (nested m) := by
  intro s
  rcases lastState_nested_cases m s with hlast | hlast <;> rw [hlast]
  · exact hm (deeper s)
  · exact ⟨[], (List.append_nil _).symm, by simp⟩

variable {setting : Setting σ} {t : Text}

/-- Neither the line of a roll nor the problems of its two numbers quote anything. -/
theorem roll (ha : PermitsEven allowed t) (count sides : Float) :
    Writes allowed (roll setting count sides : Eval σ Float stack) :=
  keptByEntries.roll (fun s n faces => ⟨[.roll (rollLine setting n faces s)], rfl,
    by simpa using ha.bare rfl rfl⟩) (ha.bare rfl rfl) (ha.bare rfl rfl)

/-- **Nested evaluations.** However deep, they enter what concerns the text. -/
theorem descend (ha : Permits allowed t) (levels : Nat) (entry : Entry) :
    Writes allowed (descend setting levels entry t : Eval σ Float stack) := by
  induction levels generalizing entry t with
  | zero => exact guarded (@Respects.refuse σ σ _ _ _ _ respects _ (ha.bare rfl))
  | succ levels ih =>
    have hstep := @Respects.evalStep σ σ _ _ _ _ respects _ (Eval.descend setting levels) setting
      setting t (fun folded hfolds => ha.of_blanksFrom hfolds.blanksFrom)
      (fun entry u hu => ih (ha.of_blanksFrom hu.blanksFrom) entry) (fun _ _ _ => roll ha.even) entry
    exact guarded (nested hstep)

theorem evaluateBare (ha : Permits allowed t) :
    Writes allowed (evaluateBare setting t : Eval σ Float stack) :=
  @Respects.evaluateBare σ σ _ _ _ _ respects setting setting rfl t ha (descend ha _ .whole)

end Writes

/-- The entries made are those of the ledger in the end, and that the expression is too complex if
the stack is exhausted. -/
theorem mem_entriesMade {setting : Setting σ} {dice : σ} {expression : Text} {e : Event}
    (h : e ∈ entriesMade setting dice expression stack) :
    e ∈ (lastState ((evaluateBare setting expression.withoutBlanks : Eval σ Float stack)
      { dice })).ledger.events ∨ e = .problem .tooComplex := by
  cases hrun : (evaluateBare setting expression.withoutBlanks : Eval σ Float stack) { dice } with
  | ok value u =>
    rw [entriesMade_of_ok hrun] at h
    exact .inl h
  | error fault u =>
    cases hfault : fault.escaping with
    | some escaped =>
      rw [entriesMade_of_escaping hrun hfault] at h
      exact .inl h
    | none =>
      rw [entriesMade_of_exhausted hrun hfault, List.mem_append, List.mem_singleton] at h
      exact h

/-- **Entries.** Whatever the evaluation of an expression enters, before a fault too, concerns the
expression without its blanks. -/
theorem concerns_of_mem_entriesMade (setting : Setting σ) (dice : σ) (expression : Text)
    (stack : Stack) :
    ∀ e ∈ entriesMade setting dice expression stack, Concerns expression.withoutBlanks e := by
  intro e he
  have hown : Permits (Concerns expression.withoutBlanks) expression.withoutBlanks := fun _ => id
  have hwrites : Writes (Concerns expression.withoutBlanks)
      (evaluateBare setting expression.withoutBlanks : Eval σ Float stack) :=
    Writes.evaluateBare hown
  rcases mem_entriesMade he with hmem | rfl
  · obtain ⟨entries, hentries, hconcern⟩ := hwrites { dice }
    rw [hentries] at hmem
    exact hconcern e hmem
  · exact hown.bare rfl

/-- Nothing that is entered has a line break in its wording. -/
theorem unbroken_of_mem_entriesMade (setting : Setting σ) (dice : σ) (expression : Text)
    (stack : Stack) :
    ∀ entry ∈ entriesMade setting dice expression stack, ∀ w ∈ entry.wordings, Unbroken w := by
  have hsolid : ∀ c ∈ expression.withoutBlanks, isBlank c = false := by
    intro c hc
    simpa using (List.mem_filter.mp hc).2
  exact fun entry hentry => unbroken_wordings
    (concerns_of_mem_entriesMade setting dice expression stack entry hentry) hsolid

/-- Every roll line that is entered comes from a roll. -/
theorem isRolled_of_mem_entriesMade {setting : Setting σ} {dice : σ} {expression : Text}
    {line : RollLine} (h : .roll line ∈ entriesMade setting dice expression stack) :
    IsRolled line := by
  obtain ⟨quoted, hquotes, -⟩ := concerns_of_mem_entriesMade setting dice expression stack _ h
  cases line with
  | stated line => cases hquotes
  | rolled count faces shown cut total => exact ⟨count, faces, shown, cut, total, rfl⟩

/-! ## The report -/

/-- Lines under a title, which is left out where there are none. -/
def titled (title : String) (lines : List String) : List String :=
  if lines.isEmpty then [] else title :: lines

theorem forall_mem_titled {P : String → Prop} {title : String} {lines : List String}
    (htitle : P title) (h : ∀ line ∈ lines, P line) : ∀ line ∈ titled title lines, P line := by
  intro line hline
  unfold titled at hline
  split_ifs at hline
  · cases hline
  · rcases List.mem_cons.mp hline with rfl | hline
    · exact htitle
    · exact h line hline

namespace Evaluation

/-- What is told of an evaluation: how it ended, each problem, each roll and, where they are asked
for, the steps, on one line each. -/
def told (e : Evaluation) (verbose : Bool) : List String :=
  (if e.failed then s!"Error evaluating {e.expression.quoted}:"
    else s!"Result: {(displayText e.value).toString}") ::
  ((if e.failed then e.ledger.problems.map fun p => "- " ++ p.message else []) ++
    titled "Rolls:" (e.ledger.rolls.map fun line => "  " ++ line.text.toString) ++
    (if verbose then titled "Steps:"
      (e.ledger.steps.map fun step => s!"  {step.message}  [{step.fragment.toString}]") else []))

variable {e : Evaluation} {verbose : Bool}

/-- The rolls, kept as one text, are listed one by one. -/
theorem reportLines_eq_told (h : ∀ line ∈ e.ledger.rolls, IsRolled line) :
    e.reportLines verbose = e.told verbose := by
  have hempty : e.ledger.rollText.isEmpty = e.ledger.rolls.isEmpty := by
    rw [Bool.eq_iff_iff, List.isEmpty_iff, List.isEmpty_iff]
    constructor
    · intro htext
      rw [← List.map_eq_nil_iff (f := RollLine.text), ← lines_rollText h, htext]
      rfl
    · intro hrolls
      rw [Ledger.rollText, hrolls]
      rfl
  have hrolls : e.rollLines =
      titled "Rolls:" (e.ledger.rolls.map fun line => "  " ++ line.text.toString) := by
    rw [rollLines, hempty, lines_rollText h, titled, List.isEmpty_map, List.map_map]
    rfl
  have hsteps : e.stepLines = titled "Steps:"
      (e.ledger.steps.map fun step => s!"  {step.message}  [{step.fragment.toString}]") := by
    rw [stepLines, titled, List.isEmpty_map]
  rw [reportLines, hrolls, hsteps, told, outcomeLines, outcome, Ledger.messages]
  cases e.failed
  · rfl
  · simp

/-- A property of all lines is asked for kind by kind. -/
theorem forall_mem_told {P : String → Prop}
    (hheader : if e.failed then P s!"Error evaluating {e.expression.quoted}:"
      else P s!"Result: {(displayText e.value).toString}")
    (hproblem : ∀ p ∈ e.ledger.problems, P ("- " ++ p.message))
    (hrolls : P "Rolls:") (hroll : ∀ line ∈ e.ledger.rolls, P ("  " ++ line.text.toString))
    (hsteps : P "Steps:")
    (hstep : ∀ step ∈ e.ledger.steps, P s!"  {step.message}  [{step.fragment.toString}]") :
    ∀ line ∈ e.told verbose, P line := by
  rw [told, List.forall_mem_cons, List.forall_mem_append, List.forall_mem_append]
  refine ⟨?_, ⟨?_, ?_⟩, ?_⟩
  · split_ifs at hheader ⊢ <;> exact hheader
  · split_ifs
    · exact List.forall_mem_map.mpr hproblem
    · simp
  · exact forall_mem_titled hrolls (List.forall_mem_map.mpr hroll)
  · split_ifs
    · exact forall_mem_titled hsteps (List.forall_mem_map.mpr hstep)
    · simp

/-- What is told stands on lines of its own, if the expression and the wordings of the entries
do. -/
theorem lineFeed_notMem_told (hexpression : '\n' ∉ e.expression)
    (h : ∀ entry ∈ e.ledger.events, ∀ w ∈ entry.wordings, Unbroken w) :
    ∀ line ∈ e.told verbose, '\n' ∉ line.toList := by
  have hfeed : ∀ {w : Text}, Unbroken w → '\n' ∉ w := fun hw hmem =>
    Bool.false_ne_true ((hw _ hmem).symm.trans (by decide))
  apply forall_mem_told
  case hheader =>
    have hvalue : '\n' ∉ displayText e.value := hfeed (unbroken_displayText e.value)
    split_ifs <;>
      simp [String.toList_append, Text.quoted, Text.toString, toString, hexpression, hvalue]
  case hproblem =>
    intro p hp
    have hmessage : '\n' ∉ p.message.toList :=
      hfeed (h _ (Ledger.mem_problems.mp hp) _ List.mem_cons_self)
    simpa [String.toList_append] using hmessage
  case hroll =>
    intro line hline
    have htext : '\n' ∉ line.text := hfeed (h _ (Ledger.mem_rolls.mp hline) _ List.mem_cons_self)
    simpa [String.toList_append, Text.toString] using htext
  case hstep =>
    intro step hstep
    have hwordings := h _ (Ledger.mem_steps.mp hstep)
    have hmessage : '\n' ∉ step.message.toList := hfeed (hwordings _ List.mem_cons_self)
    have hfragment : '\n' ∉ step.fragment := hfeed (hwordings _ (by simp [Event.wordings]))
    simp [String.toList_append, Text.toString, toString, hmessage, hfragment]
  all_goals decide

/-- A failed evaluation tells no result. -/
theorem not_prefix_of_mem_told (he : e.failed = true) :
    ∀ line ∈ e.told verbose, ¬"Result: ".toList <+: line.toList := by
  apply forall_mem_told
  case hheader =>
    rw [if_pos he]
    simp [String.toList_append, toString]
  all_goals simp [String.toList_append, toString]

/-- A report can be taken apart into its lines. -/
theorem splitOn_report (hrolls : ∀ line ∈ e.ledger.rolls, IsRolled line)
    (h : ∀ line ∈ e.told verbose, '\n' ∉ line.toList) :
    (e.report verbose).toList.splitOn '\n' = (e.told verbose).map String.toList := by
  rw [report, reportLines_eq_told hrolls, String.toList_intercalate]
  exact List.splitOn_intercalate _ (by simpa using h) (by simp [told])

end Evaluation

/-- **Reports, line by line.** Nothing that an evaluation enters has a line break of any kind in
it. Where the evaluation returns and the expression has no line feed, the report is what is told
of the evaluation, each of its lines between two line feeds; a failed one has no line that starts
like a result. The dice afterwards are those that the rolls told of have left. -/
theorem evaluateExpression_report (setting : Setting σ) (dice : σ) (expression : Text)
    (stack : Stack) :
    (∀ entry ∈ entriesMade setting dice expression stack, ∀ w ∈ entry.wordings, Unbroken w) ∧
    ∀ e after, evaluateExpression setting dice expression stack = .ok (e, after) →
      '\n' ∉ expression → ∀ verbose,
        e.expression = expression ∧
        e.ledger.events = entriesMade setting dice expression stack ∧
        after = setting.source.replay e.ledger.events dice ∧
        (e.report verbose).toList.splitOn '\n' = (e.told verbose).map String.toList ∧
        (e.failed = true →
          ∀ line ∈ (e.report verbose).toList.splitOn '\n', ¬"Result: ".toList <+: line) := by
  have hunbroken := unbroken_of_mem_entriesMade setting dice expression stack
  refine ⟨hunbroken, fun e after hrun hline verbose => ?_⟩
  have hexpression : e.expression = expression := expression_of_evaluateExpression hrun
  have hevents : e.ledger.events = entriesMade setting dice expression stack :=
    events_of_evaluateExpression hrun
  have hrolled : ∀ line ∈ e.ledger.rolls, IsRolled line := fun line hmem =>
    isRolled_of_mem_entriesMade (hevents ▸ Ledger.mem_rolls.mp hmem)
  have hsplit : (e.report verbose).toList.splitOn '\n' = (e.told verbose).map String.toList :=
    Evaluation.splitOn_report hrolled
      (Evaluation.lineFeed_notMem_told (hexpression ▸ hline) (hevents ▸ hunbroken))
  refine ⟨hexpression, hevents, replay_of_evaluateExpression hrun, hsplit, fun hfailed => ?_⟩
  rw [hsplit, List.forall_mem_map]
  exact Evaluation.not_prefix_of_mem_told hfailed

/-- A failed evaluation that has rolled dice, with its steps. -/
theorem evaluateExpression_report_failed :
    ∃ e after, evaluateExpression usual (.cycle [3, 1, 4] 0) ['2', 'd', '6', '/', '0'] =
        .ok (e, after) ∧
      (e.report true).toList.splitOn '\n' =
        ["Error evaluating '2d6/0':", "- Division by zero in '2d6/0'.", "Rolls:",
          "  2d6: [4, 2] = 6", "Steps:", "  2 d 6 = 6  [2d6]"].map String.toList ∧
      ∀ line ∈ (e.report true).toList.splitOn '\n', ¬"Result: ".toList <+: line := by
  have htold : (evaluateExpression usual (.cycle [3, 1, 4] 0) ['2', 'd', '6', '/', '0']).map
      (fun (e, _) => (e.failed, e.told true)) =
    .ok (true, ["Error evaluating '2d6/0':", "- Division by zero in '2d6/0'.", "Rolls:",
      "  2d6: [4, 2] = 6", "Steps:", "  2 d 6 = 6  [2d6]"]) := by decide +kernel
  cases hrun : evaluateExpression usual (.cycle [3, 1, 4] 0) ['2', 'd', '6', '/', '0'] with
  | error fault => rw [hrun] at htold; cases htold
  | ok result =>
    obtain ⟨e, after⟩ := result
    obtain ⟨-, hreport⟩ := evaluateExpression_report usual (.cycle [3, 1, 4] 0)
      ['2', 'd', '6', '/', '0'] .ample
    obtain ⟨-, -, -, hsplit, hfailed⟩ := hreport e after hrun (by decide) true
    rw [hrun] at htold
    have hpair : e.failed = true ∧ e.told true = _ := Prod.mk.inj (Except.ok.inj htold)
    exact ⟨e, after, rfl, hpair.2 ▸ hsplit, hfailed hpair.1⟩

end Reckoner

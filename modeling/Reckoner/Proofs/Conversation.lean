import Reckoner.Console
import Reckoner.Proofs.Outcome

/-!
# The conversation as a fold

Without an expression on the command line the program reads lines, and each of them is blank, or
ends the conversation, or is evaluated. What is printed can be told without this loop: the input
is cut at its line feeds, what stands before the first word that ends the conversation is taken,
blank lines are left out, and the rest is evaluated in turn (`transcript_conversation`). Nothing
but the dice goes from one evaluation to the next.
-/

namespace Reckoner

variable {σ : Type}

/-! ## The expressions of an input -/

/-- Whether a line without the blanks at its ends is a word that ends the conversation. -/
def isLeavingWord (t : Text) : Bool := leavingWords.any (·.toList == t.lowered)

/-- The expressions among some lines. -/
def queriesAmong (lines : List Text) : List Text :=
  ((lines.map Text.strip).takeWhile (!isLeavingWord ·)).filter (!·.isEmpty)

/-- The expressions of an input, in order: its lines without the blanks at their ends, up to the
first one that ends the conversation, save those that are blank. -/
def queries (input : Text) : List Text := queriesAmong (input.splitOn '\n')

/-- The first line is what the conversation takes it for. -/
theorem queriesAmong_cons (line : Text) (rest : List Text) :
    queriesAmong (line :: rest) =
      match Query.ofLine line with
      | .nothing => queriesAmong rest
      | .leave => []
      | .evaluate t => t :: queriesAmong rest := by
  have hquery : Query.ofLine line =
      if isLeavingWord line.strip then .leave
      else if line.strip.isEmpty then .nothing else .evaluate line.strip := rfl
  rw [queriesAmong, List.map_cons, List.takeWhile_cons, hquery]
  cases isLeavingWord line.strip with
  | true => rfl
  | false =>
    rw [Bool.not_false, if_pos rfl, List.filter_cons, if_neg Bool.false_ne_true]
    cases hblank : line.strip.isEmpty <;> rfl

/-- An empty line at the end asks for nothing. -/
theorem queriesAmong_concat_nil (lines : List Text) :
    queriesAmong (lines ++ [[]]) = queriesAmong lines := by
  induction lines with
  | nil => rfl
  | cons line rest ih => rw [List.cons_append, queriesAmong_cons, queriesAmong_cons, ih]

/-- Lines as they are read are the parts between line feeds, but for an empty one at the end. -/
theorem splitOn_eq_fedLinesFrom (t line : Text) :
    ∃ tail, (tail = [] ∨ tail = [[]]) ∧
      t.splitOnPPrepend (· == '\n') line = Text.fedLinesFrom line t ++ tail := by
  induction t generalizing line with
  | nil =>
    rw [List.splitOnPPrepend_nil, Text.fedLinesFrom]
    cases line with
    | nil => exact ⟨[[]], .inr rfl, rfl⟩
    | cons c line => exact ⟨[], .inl rfl, rfl⟩
  | cons c t ih =>
    rw [List.splitOnPPrepend_cons_eq_if, Text.fedLinesFrom]
    split
    · obtain ⟨tail, htail, hlines⟩ := ih []
      refine ⟨tail, htail, ?_⟩
      rw [List.splitOnP_eq_splitOnPPrepend, hlines, List.cons_append]
    · exact ih (c :: line)

theorem queriesAmong_fedLines (input : Text) : queriesAmong input.fedLines = queries input := by
  obtain ⟨tail, htail, hlines⟩ := splitOn_eq_fedLinesFrom input []
  rw [queries, List.splitOn, List.splitOnP_eq_splitOnPPrepend, hlines, Text.fedLines]
  rcases htail with rfl | rfl
  · rw [List.append_nil]
  · rw [queriesAmong_concat_nil]

/-! ## Evaluations in turn -/

/-- Every expression is evaluated afresh, on the same stack and with the dice that the one before
has left. -/
inductive EvaluatedInTurn (setting : Setting σ) (stack : Stack) :
    σ → List Text → List Evaluation → σ → Prop where
  | nil (dice : σ) : EvaluatedInTurn setting stack dice [] [] dice
  | cons {dice between after : σ} {t : Text} {ts : List Text} {e : Evaluation}
    {es : List Evaluation} (he : evaluateExpression setting dice t stack = .ok (e, between))
    (hes : EvaluatedInTurn setting stack between ts es after) :
    EvaluatedInTurn setting stack dice (t :: ts) (e :: es) after

/-- The entries that are made when expressions are evaluated in turn. -/
def entriesInTurn (setting : Setting σ) (stack : Stack) : σ → List Text → List Event
  | _, [] => []
  | dice, t :: ts =>
    let made := entriesMade setting dice t stack
    made ++ entriesInTurn setting stack (setting.source.replay made dice) ts

variable {setting : Setting σ} {stack : Stack} {dice after : σ}

theorem evaluatedInTurn_of_fitting {ts : List Text}
    (hfit : ∀ entry ∈ entriesInTurn setting stack dice ts, entry.overflows = false) :
    ∃ es after, EvaluatedInTurn setting stack dice ts es after := by
  induction ts generalizing dice with
  | nil => exact ⟨[], dice, .nil dice⟩
  | cons t ts ih =>
    rw [entriesInTurn, List.forall_mem_append] at hfit
    obtain ⟨e, between, he, hevents⟩ := evaluateExpression_of_fitting hfit.1
    have hbetween := replay_of_evaluateExpression he
    rw [← hevents, ← hbetween] at hfit
    obtain ⟨es, after, hes⟩ := ih hfit.2
    exact ⟨e :: es, after, .cons he hes⟩

/-! ## The conversation -/

section Loop

variable {m : Type → Type} [Monad m] [LawfulMonad m] [MonadExceptOf Fault m]
  (tell : Evaluation → m Unit)

omit [LawfulMonad m] in
theorem converse_nil : converse setting tell dice ([] : List Text) stack = pure dice := rfl

/-- One line: what is asked for is evaluated and told of, and the conversation goes on with the
dice that are left; a blank line changes nothing, and after a leaving word there is nothing. -/
theorem converse_cons {line : Text} {response : Response σ}
    (h : respond setting dice line stack = .ok response) (rest : List Text) :
    converse setting tell dice (line :: rest) stack =
      match response with
      | .silence => converse setting tell dice rest stack
      | .leave => pure dice
      | .report e between => tell e >>= fun _ => converse setting tell between rest stack := by
  rw [converse, List.forIn_cons]
  simp only [h]
  cases response with
  | silence => exact pure_bind ..
  | leave => exact pure_bind ..
  | report e between =>
    dsimp only
    rw [bind_assoc]
    simp only [pure_bind]
    rfl

/-- The loop does what evaluation in turn does, and tells of each evaluation. -/
theorem converse_of_evaluatedInTurn {lines : List Text} {es : List Evaluation}
    (h : EvaluatedInTurn setting stack dice (queriesAmong lines) es after) :
    converse setting tell dice lines stack = (do forM es tell; return after) := by
  induction lines generalizing dice es with
  | nil =>
    cases h
    rw [converse_nil, List.forM_nil, pure_bind]
  | cons line rest ih =>
    rw [queriesAmong_cons] at h
    have hrespond : respond setting dice line stack = match Query.ofLine line with
        | .nothing => .ok .silence
        | .leave => .ok .leave
        | .evaluate t => (evaluateExpression setting dice t stack).map fun r => .report r.1 r.2 := rfl
    cases hquery : Query.ofLine line with
    | nothing =>
      rw [hquery] at h hrespond
      rw [converse_cons tell hrespond]
      exact ih h
    | leave =>
      rw [hquery] at h hrespond
      rw [converse_cons tell hrespond]
      cases h
      rw [List.forM_nil, pure_bind]
    | evaluate t =>
      rw [hquery] at h hrespond
      cases h with
      | cons he hes =>
        dsimp only at hrespond
        rw [he] at hrespond
        rw [converse_cons tell hrespond, List.forM_cons, bind_assoc]
        dsimp only
        rw [ih hes]

end Loop

/-- What is told of evaluations is printed, one report after the other. -/
theorem run_tell_printed (verbose : Bool) (es : List Evaluation) (printed : List String) :
    (forM es (Outlet.printed.tell verbose)).run printed =
      .ok ((), printed ++ es.map (·.report verbose)) := by
  induction es generalizing printed with
  | nil =>
    rw [List.map_nil, List.append_nil]
    rfl
  | cons e es ih =>
    rw [List.forM_cons]
    show (forM es (Outlet.printed.tell verbose)).run (printed ++ [e.report verbose]) = _
    rw [ih, List.map_cons, List.append_assoc]
    rfl

/-- **The conversation.** Where no words of an expression are on the command line and no roll
has a total beyond all doubles, the program ends with exit code zero, whatever its stack holds. It
has printed the greeting and then, for each expression of the input, the report on a fresh
evaluation that starts with the dice which the evaluation before it has left. Afterwards the dice
are those that the last of these evaluations has left: nothing was drawn for the lines behind a
leaving word. -/
theorem transcript_conversation (setting : Setting σ) (stack : Stack) (dice : σ)
    (request : Request) (hwords : request.words = []) (hseed : request.seed ≠ .dropped)
    (input : Text)
    (hfit : ∀ entry ∈ entriesInTurn setting stack dice (queries input), entry.overflows = false) :
    ∃ evaluations after transcript,
      EvaluatedInTurn setting stack dice (queries input) evaluations after ∧
      (Invocation.run request).transcript setting dice input.fedLines stack = .ok transcript ∧
      transcript.exitCode = 0 ∧
      transcript.text = greeting ++ "\n" ++
        String.join (evaluations.map fun e => e.report request.verbose ++ "\n") ∧
      transcript.dice = after := by
  obtain ⟨evaluations, after, hturn⟩ := evaluatedInTurn_of_fitting hfit
  have hconverse := converse_of_evaluatedInTurn (Outlet.printed.tell request.verbose)
    (queriesAmong_fedLines input ▸ hturn)
  refine ⟨evaluations, after,
    { exitCode := 0
      printed := greeting :: evaluations.map (·.report request.verbose)
      dice := after },
    hturn, ?_, rfl, ?_, rfl⟩
  · have hrun : (request.carryOut setting .printed dice input.fedLines stack).run [] =
        .ok ((0, after), greeting :: evaluations.map (·.report request.verbose)) := by
      rw [Request.carryOut, hwords, List.isEmpty_nil, if_pos rfl, hconverse]
      show (((forM evaluations (Outlet.printed.tell request.verbose)).run [greeting] >>= fun r =>
        .ok (after, r.2)) >>= fun r => .ok ((0, r.1), r.2)) = _
      rw [run_tell_printed]
      rfl
    rw [Invocation.transcript, if_neg (by simpa using hseed), Request.transcript, hrun]
    rfl
  · rw [Transcript.text, List.map_cons, String.join_cons, List.map_map]
    rfl

/-- A blank line draws nothing, a failed line draws what it rolls, and nothing is drawn for the
line behind the leaving word. -/
theorem transcript_conversation_leaving :
    ∃ evaluations,
      EvaluatedInTurn usual .ample (.cycle [3, 1, 4] 0) ["2d6".toList, "1d4/0".toList] evaluations
        (.cycle [3, 1, 4] 3) ∧
      (Invocation.ofTexts [['-', 'v']]).transcript usual (.cycle [3, 1, 4] 0)
          (Text.fedLines "2d6\n\n1d4/0\n Exit \n3d8\n".toList) =
        .ok {
          exitCode := 0
          printed := [greeting,
            "Result: 6\nRolls:\n  2d6: [4, 2] = 6\nSteps:\n  2 d 6 = 6  [2d6]",
            "Error evaluating '1d4/0':\n- Division by zero in '1d4/0'.\nRolls:\n  1d4: [1] = 1\n" ++
              "Steps:\n  1 d 4 = 1  [1d4]"]
          dice := .cycle [3, 1, 4] 3 } := by
  have hqueries : queries "2d6\n\n1d4/0\n Exit \n3d8\n".toList =
      ["2d6".toList, "1d4/0".toList] := by decide +kernel
  have hleft : ((Invocation.run { verbose := true }).transcript usual (.cycle [3, 1, 4] 0)
      (Text.fedLines "2d6\n\n1d4/0\n Exit \n3d8\n".toList)).map (·.dice) =
    .ok (.cycle [3, 1, 4] 3) := by decide +kernel
  obtain ⟨evaluations, after, transcript, hturn, htranscript, -, -, hdice⟩ :=
    transcript_conversation usual .ample (.cycle [3, 1, 4] 0) { verbose := true } rfl (by decide)
      "2d6\n\n1d4/0\n Exit \n3d8\n".toList (by decide +kernel)
  rw [htranscript, Except.map, hdice] at hleft
  cases hleft
  exact ⟨evaluations, hqueries ▸ hturn, by decide +kernel⟩

end Reckoner

import Reckoner.Evaluation
import Reckoner.Text.Line

/-!
# Reports

A report tells a person what came of an evaluation. A failed one shows every message
and never a number. Rolls are always listed, the steps only when they are asked for.
-/

namespace Reckoner

namespace Evaluation

/-- The lines about the outcome. -/
def outcomeLines (e : Evaluation) : List String :=
  match e.outcome with
  | .failure messages _ =>
    s!"Error evaluating {e.expression.quoted}:" :: messages.map ("- " ++ ·)
  | .value value => [s!"Result: {(displayText value).toString}"]

def rollLines (e : Evaluation) : List String :=
  let text := e.ledger.rollText
  if text.isEmpty then [] else "Rolls:" :: text.lines.map fun line => "  " ++ line.toString

def stepLines (e : Evaluation) : List String :=
  if e.ledger.steps.isEmpty then []
  else "Steps:" :: e.ledger.steps.map fun step => s!"  {step.message}  [{step.fragment.toString}]"

def reportLines (e : Evaluation) (verbose : Bool) : List String :=
  e.outcomeLines ++ e.rollLines ++ (if verbose then e.stepLines else [])

/-- The report, its lines joined by line feeds. -/
def report (e : Evaluation) (verbose : Bool) : String := "\n".intercalate (e.reportLines verbose)

end Evaluation

end Reckoner

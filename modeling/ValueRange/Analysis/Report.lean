import ValueRange.Analysis.Fixpoint
import ValueRange.Log

/-!
# Reports of the range analysis

The texts made from the outcome of the range analysis of one function: its report, its trace and its
log records.
-/

namespace ValueRange.Function

/-- First line of the report on a function. -/
def reportHeader (function : Function) : String :=
  "*** interval range analysis for function " ++ function.name ++ " ***\n"

/-- Line of a report on one instruction. -/
def reportLine (printer : Printer) (entry : Nat × Interval) : Except Fault String := do
  let text ← printer.instruction entry.1
  pure (text ++ " = " ++ entry.2.text ++ "\n")

/-- The lines of a report on the instructions of a function. -/
def reportLines (function : Function) (ranges : Ranges) : Except Fault (List String) :=
  match function.body with
  | none => pure []
  | some body => ranges.store.toList.mapM (reportLine (function.printer body))

/-- The report on a function. -/
def report (function : Function) (ranges : Ranges) : Except Fault String := do
  let lines ← function.reportLines ranges
  pure (function.reportHeader ++ String.join lines)

/-- The lines of what has been recorded. -/
def trace (function : Function) (ranges : Ranges) : Except Fault (List String) :=
  match function.body with
  | none => pure []
  | some body => do
    let lines ← ranges.events.mapM (Event.lines function.name (function.printer body))
    pure lines.flatten

/-- The log records of analysing a function at a nesting depth. -/
def records (function : Function) (depth : Nat) (outcome : Except Fault Ranges) :
    List Log.Record :=
  match function.body with
  | none => []
  | some body =>
    let (scope, _) := Log.Scope.enter ("range analysis of function " ++ function.name) depth
    let pending := scope.event (toString body.trackedIds.length ++ " instructions pending")
    let result := match outcome with
      | .error _ => []
      | .ok ranges =>
        let evaluations := toString ranges.evaluations ++ " evaluations"
        [scope.event ("fixedpoint after " ++ evaluations),
          ⟨.debug, "function " ++ function.name ++ ": " ++ toString ranges.store.size ++
            " instructions tracked, " ++ evaluations⟩]
    scope.opening :: pending :: result ++ [scope.closing]

end ValueRange.Function

import ValueRange.Interval.Basic
import ValueRange.Program.Printer
import ValueRange.Store

/-!
# Events of the range analysis

What a verbose run records, and the lines that are shown for it.
-/

namespace ValueRange

/-- A step of the range analysis. -/
inductive Event where
  /-- The analysis starts with these intervals and this queue. -/
  | started (entries : List (Nat × Interval)) (queue : List Nat)
  /-- A phi node is about to join its incoming values. -/
  | merging (id : Nat)
  /-- A phi node has joined one of them. -/
  | joined (position : Nat) (accumulated operand result : Interval)
  /-- The new interval of an instruction has been widened. -/
  | widened (id : Nat) (value : Interval)
  /-- An instruction has been evaluated. -/
  | evaluated (id : Nat) (old new : Interval)
  /-- An instruction has been put on the worklist. -/
  | queued (id : Nat)
deriving DecidableEq, Repr

namespace Event

/-- The steps in which a phi node joins intervals to what it has accumulated. -/
def joins (position : Nat) (accumulated : Interval) : List Interval → List Event
  | [] => []
  | operand :: operands =>
    let result := accumulated.lub operand
    joined position accumulated operand result :: joins (position + 1) result operands

/-- The lines of an event in the run on a function of the given name. -/
def lines (name : String) (printer : Printer) : Event → Except Fault (List String)
  | started entries queue => do
    let bound ← entries.mapM fun (id, value) => do
      let text ← printer.instruction id
      pure ("--> " ++ text ++ " = " ++ value.text)
    let pending ← queue.mapM fun id => do
      let text ← printer.instruction id
      pure ("--> " ++ text)
    pure (("initial interval range state for function " ++ name) :: bound ++
      "initial worklist" :: pending)
  | merging id => do
    let text ← printer.instruction id
    pure ["merging values at node " ++ text]
  | joined position accumulated operand result =>
    pure ["--> phi[" ++ toString position ++ "] with lub(" ++ accumulated.text ++ ", " ++
      operand.text ++ ") = " ++ result.text]
  | widened id value => do
    let text ← printer.instruction id
    pure ["widening " ++ text ++ " to " ++ value.text]
  | evaluated id old new => do
    let text ← printer.instruction id
    pure ["analyzing " ++ text, "--> old value = " ++ old.text, "--> new value = " ++ new.text]
  | queued id => do
    let text ← printer.instruction id
    pure ["adding to worklist: " ++ text]

end Event

end ValueRange

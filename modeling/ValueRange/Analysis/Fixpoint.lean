import ValueRange.Analysis.Event
import ValueRange.Analysis.Options
import ValueRange.Analysis.Transfer
import ValueRange.Worklist

/-!
# Fixpoint iteration

The range analysis of a body starts with every tracked instruction at the empty interval and on the
worklist. An evaluation takes one instruction off the worklist, computes its interval from those of
its operands and, if it changed, stores it and puts the tracked users on the worklist. An instruction
that has been evaluated more often than the threshold is widened whenever it changes.

With a low threshold an interval may shrink after it was widened, and then the iteration may go round
in circles. It therefore runs on fuel, and running out of fuel is an outcome of its own.
-/

namespace ValueRange

/-- The range analysis of a body between two evaluations. -/
structure State where
  /-- Interval of every tracked instruction. -/
  store : Store Interval
  /-- Instructions to be evaluated. -/
  worklist : Worklist
  /-- Number of evaluations of each instruction that has been evaluated. -/
  visits : Store Nat
  /-- What has been recorded, the latest first. -/
  events : List Event

namespace State

/-- Record events if the run is verbose. -/
def record (state : State) (options : Options) (events : List Event) : State :=
  if options.verbose then { state with events := events.reverse ++ state.events } else state

/-- Number of evaluations of an instruction. -/
def visitsOf (state : State) (id : Nat) : Nat := (state.visits.get? id).getD 0

/-- Number of all evaluations. -/
def evaluations (state : State) : Nat := state.visits.values.foldl (· + ·) 0

end State

namespace Body

/-- Every tracked instruction is empty and pending. -/
def initial (body : Body) (options : Options) : State :=
  let store := body.trackedIds.foldl (fun store id => store.insert id Interval.empty) ∅
  let worklist := Worklist.empty.pushAll body.trackedIds
  State.record ⟨store, worklist, ∅, []⟩ options [.started store.toList worklist.toList]

/-- The events of computing the interval of an instruction. -/
def transferEvents (body : Body) (id : Nat) (store : Store Interval) : List Event :=
  match (body.node? id).map Node.instruction with
  | some (.phi incoming) =>
    .merging id :: Event.joins 0 .empty (Instruction.incomingIntervals store incoming)
  | _ => []

/-- Evaluate an instruction that has been taken off the worklist. -/
def visit (body : Body) (options : Options) (state : State) (id : Nat) : Except Fault State := do
  let old := (state.store.get? id).getD .empty
  let value ← body.evaluate id state.store
  let visits := state.visitsOf id + 1
  let widens := options.exceeded visits && decide (value ≠ old)
  let new := if widens then value.widen old else value
  let widenEvents := if widens then [Event.widened id new] else []
  let events := body.transferEvents id state.store ++ widenEvents ++ [.evaluated id old new]
  let state := State.record { state with visits := state.visits.insert id visits } options events
  if new = old then
    pure state
  else
    let users ← body.findTrackedUsers id
    let queued := (state.worklist.appended users).map Event.queued
    pure (State.record
      { state with
        store := state.store.insert id new
        worklist := state.worklist.pushAll users }
      options queued)

/-- Take the next instruction off the worklist and evaluate it; `none` if the worklist is empty. -/
def advance? (body : Body) (options : Options) (state : State) : Option (Except Fault State) :=
  match state.worklist.pop? with
  | none => none
  | some (id, worklist) => some (body.visit options { state with worklist } id)

/-- Evaluate instructions until the worklist is empty or a fault occurs; `none` if that takes more
evaluations than there is fuel. -/
def run (body : Body) (options : Options) : Nat → State → Option (Except Fault State)
  | 0, state => if state.worklist.isEmpty then some (.ok state) else none
  | fuel + 1, state =>
    match body.advance? options state with
    | none => some (.ok state)
    | some (.error fault) => some (.error fault)
    | some (.ok next) => body.run options fuel next

end Body

/-- Outcome of the range analysis of a function. -/
structure Ranges where
  /-- Final interval of every tracked instruction. -/
  store : Store Interval
  /-- Number of evaluations. -/
  evaluations : Nat
  /-- What has been recorded. -/
  events : List Event

/-- The range analysis of a function; `none` if it takes more evaluations than there is fuel. -/
def Function.ranges? (fuel : Nat) (options : Options) (function : Function) :
    Option (Except Fault Ranges) :=
  match function.body with
  | none => some (.ok ⟨∅, 0, []⟩)
  | some body =>
    match body.run options fuel (body.initial options) with
    | none => none
    | some (.error fault) => some (.error fault)
    | some (.ok state) => some (.ok ⟨state.store, state.evaluations, state.events.reverse⟩)

end ValueRange

import ValueRange.Analysis.Report
import ValueRange.Listing

/-!
# Actions on a module

An action goes through the functions of a module that have a body, in order. The range analysis stops
at the first function it fails on, and nothing is reported then.
-/

namespace ValueRange

/-- What to do with the functions of a module. -/
inductive Action where
  /-- Analyse value ranges. -/
  | range
  /-- Announce each function. -/
  | visit
  /-- Count instructions. -/
  | count
  /-- List instructions. -/
  | print
  /-- List users. -/
  | users
deriving DecidableEq, Repr

namespace Action

/-- All actions. -/
def all : List Action := [range, visit, count, print, users]

/-- Name of an action. -/
def name : Action → String
  | range => "range"
  | visit => "visit"
  | count => "count"
  | print => "print"
  | users => "users"

/-- The action of a name. -/
def ofName? (text : String) : Option Action := all.find? fun action => action.name = text

end Action

/-- What an action yields. -/
structure Output where
  /-- Reports on all functions. -/
  report : String
  /-- Lines recorded by a verbose run. -/
  trace : List String
deriving DecidableEq, Repr

namespace Output

/-- Nothing. -/
def empty : Output := ⟨"", []⟩

/-- One output after the other. -/
def append (left right : Output) : Output :=
  ⟨left.report ++ right.report, left.trace ++ right.trace⟩

/-- The report and the trace of the analysis of a function. -/
def ofRanges (function : Function) (ranges : Ranges) : Except Fault Output := do
  let report ← function.report ranges
  let trace ← function.trace ranges
  pure ⟨report, trace⟩

end Output

/-- A module with the options of its analysis. -/
structure Workflow where
  /-- The module. -/
  module : Module
  /-- The options. -/
  options : Options

namespace Workflow

/-- Analyse functions one after the other, up to the first failure. -/
def analyzeAll (fuel : Nat) (options : Options) :
    List Function → Option (Logged (Except Fault Output))
  | [] => some ⟨.ok .empty, []⟩
  | function :: rest =>
    match function.ranges? fuel options with
    | none => none
    | some (.error fault) => some ⟨.error fault, function.records 0 (.error fault)⟩
    | some (.ok ranges) =>
      match Output.ofRanges function ranges with
      | .error fault => some ⟨.error fault, function.records 0 (.ok ranges)⟩
      | .ok output =>
        match analyzeAll fuel options rest with
        | none => none
        | some others =>
          some ⟨others.value.map output.append, function.records 0 (.ok ranges) ++ others.log⟩

/-- A listing of all functions. -/
def list (functions : List Function) (listing : Function → Except Fault String) :
    Logged (Except Fault Output) :=
  let output := do
    let texts ← functions.mapM listing
    pure ⟨String.join texts, []⟩
  ⟨output, []⟩

/-- Perform an action; `none` if an analysis takes more evaluations than there is fuel. -/
def execute (fuel : Nat) (workflow : Workflow) (action : Action) :
    Option (Logged (Except Fault Output)) :=
  let functions := workflow.module.defined
  match action with
  | .range =>
    let start : Log.Record := ⟨.info, "range analysis on " ++ toString functions.length ++
      " functions of module " ++ workflow.module.name⟩
    (analyzeAll fuel workflow.options functions).map fun result =>
      { result with log := start :: result.log }
  | .visit => some (list functions fun function => pure function.announcement)
  | .count => some (list functions fun function => pure function.countListing)
  | .print => some (list functions Function.instructionListing)
  | .users => some (list functions Function.userListing)

end Workflow

end ValueRange

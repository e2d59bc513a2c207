import ValueRange.Analysis.Event
import ValueRange.Analysis.Fixpoint
import ValueRange.Analysis.Options
import ValueRange.Analysis.Report
import ValueRange.Analysis.Transfer
import ValueRange.CommandLine
import ValueRange.Decimal
import ValueRange.Digraph
import ValueRange.Document.Basic
import ValueRange.Document.Decode
import ValueRange.Document.Encode
import ValueRange.Fault
import ValueRange.FileTree
import ValueRange.Interval.Basic
import ValueRange.Interval.Bound
import ValueRange.Json.Decoder
import ValueRange.Json.Place
import ValueRange.Json.Token
import ValueRange.Listing
import ValueRange.Loading
import ValueRange.Log
import ValueRange.Main
import ValueRange.Program.Body
import ValueRange.Program.Constant
import ValueRange.Program.Instruction
import ValueRange.Program.Opcode
import ValueRange.Program.Printer
import ValueRange.Program.Ty
import ValueRange.Program.Validation
import ValueRange.Store
import ValueRange.Workflow
import ValueRange.Worklist
import ValueRange.Proofs.BoundOrder
import ValueRange.Proofs.Convergence
import ValueRange.Proofs.DefUse
import ValueRange.Proofs.IntervalArithmetic
import ValueRange.Proofs.IntervalOrder
import ValueRange.Proofs.LeastSolution
import ValueRange.Proofs.Outcome
import ValueRange.Proofs.Potential
import ValueRange.Proofs.Queue
import ValueRange.Proofs.Recurrence
import ValueRange.Proofs.Soundness
import ValueRange.Proofs.Stability
import ValueRange.Proofs.Steps
import ValueRange.Proofs.TransferLaws
import ValueRange.Proofs.Exactness
import ValueRange.Proofs.Failure
import ValueRange.Proofs.Numerals
import ValueRange.Proofs.WellFormedness
import ValueRange.Proofs.Declarations
import ValueRange.Proofs.Acceptance
import ValueRange.Proofs.Faithfulness
import ValueRange.Proofs.Closedness
import ValueRange.Proofs.Emptiness
import ValueRange.Proofs.Numbering
import ValueRange.Proofs.Verbosity
import ValueRange.Proofs.Lexing
import ValueRange.Proofs.Decoding
import ValueRange.Proofs.RoundTrip
import ValueRange.Proofs.Monotonicity
import ValueRange.Proofs.SingleSweep
import ValueRange.Proofs.AcyclicUses
import ValueRange.Proofs.IdleThreshold
import ValueRange.Proofs.Widening
import ValueRange.Proofs.Rays
import ValueRange.Proofs.CountingLoops
import ValueRange.Proofs.SumsAndDifferences
import ValueRange.Proofs.Joins
import ValueRange.Proofs.TwosComplement
import ValueRange.Proofs.Listings
import ValueRange.Proofs.Comparison
import ValueRange.Proofs.FirstInFirstOut
import ValueRange.Proofs.Printing

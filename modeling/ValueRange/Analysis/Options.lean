import ValueRange.Json.Decoder

/-!
# Options of the range analysis
-/

namespace ValueRange

/-- How the range analysis runs. -/
structure Options where
  /-- Record every step. -/
  verbose : Bool
  /-- Widen an instruction that is evaluated more often than this; never widen if there is no
  threshold. -/
  widening : Option Nat
deriving DecidableEq, Repr

namespace Options

/-- The threshold used unless another one is given. -/
def defaultWidening : Nat := 3

/-- The options used unless others are given. -/
def default : Options := ⟨false, some defaultWidening⟩

instance : Inhabited Options := ⟨default⟩

/-- Reads options; every field has a default, also in the array form. -/
def decoder : Json.Decoder Options := do
  let widening := Json.Decoder.nullable (UInt64.toNat <$> Json.Decoder.natural)
  let fields : Json.Fields [Bool, Option Nat] :=
    .cons (.withDefault "verbose" Json.Decoder.boolean default.verbose)
      (.cons (.withDefault "widening" widening default.widening) .nil)
  let (verbose, widening, ()) ← fields.decode true
  pure ⟨verbose, widening⟩

/-- The options that a text holds. -/
def decode (text : String) : Except Json.Mismatch Options := decoder.run text

/-- Whether an instruction that has been evaluated so often is to be widened. -/
def exceeded (options : Options) (visits : Nat) : Bool :=
  match options.widening with
  | some limit => limit < visits
  | none => false

end Options

end ValueRange

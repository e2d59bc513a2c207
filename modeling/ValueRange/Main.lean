import ValueRange.CommandLine

/-!
# Entry point

Reads the arguments and the module, and carries out what the run asks for.
-/

namespace ValueRange.CommandLine

/-- Why a file operation failed. -/
def fileFault : IO.Error → FileFault
  | .noFileOrDirectory _ _ _ => .missing
  | .inappropriateType _ 20 _ => .notDirectory
  | .inappropriateType _ 21 _ => .directory
  | .invalidArgument _ 36 _ => .nameTooLong
  | failure => .other (toString failure)

/-- Read a path. -/
def readSource (path : String) : IO (Except FileFault ByteArray) := do
  try
    return .ok (← IO.FS.withFile path .read fun handle => handle.readBinToEnd)
  catch failure =>
    return .error (fileFault failure)

/-- Number of evaluations after which an analysis is given up. -/
def evaluationLimit : Nat := 1 <<< 62

/-- Write the file of an effect, and find out what is left to do. -/
def Effect.writeFile (effect : Effect) : IO Effect := do
  match effect.file with
  | none => return effect
  | some (path, content) =>
    try
      IO.FS.writeFile path content
      return effect.written path
    catch failure =>
      return effect.unwritten (fileFault failure)

/-- Carry out what a run does to its surroundings; `least` is the least severity of the log records
shown. -/
def Effect.carryOut (least : Log.Level) (effect : Effect) : IO UInt32 := do
  let effect ← effect.writeFile
  IO.eprint (effect.stderrText least)
  IO.print effect.stdout
  return UInt32.ofNat effect.exitCode

end ValueRange.CommandLine

open ValueRange.CommandLine

/-- Run the program. -/
def main (arguments : List String) : IO UInt32 := do
  match parse arguments with
  | .error .help =>
    IO.print helpText
    return 0
  | .error .version =>
    IO.print versionText
    return 0
  | .error .usage =>
    IO.eprint usageText
    return 1
  | .ok invocation =>
    let concurrent := concurrent (← IO.getEnv "IRANGE_PARALLEL")
    let source ← readSource invocation.input
    match invocation.run evaluationLimit source with
    | some effect => effect.carryOut (invocation.logLevel concurrent)
    | none =>
      IO.eprintln (Notice.error "the analysis was given up").text
      return 1

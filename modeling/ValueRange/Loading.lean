import ValueRange.Document.Decode
import ValueRange.FileTree
import ValueRange.Program.Validation
import ValueRange.Workflow

/-!
# Loading modules

A module is loaded from a file in three steps, each with faults of its own: the file is read as text,
the text is decoded, and the document is checked.
-/

namespace ValueRange

/-- The text that reading a file gives. -/
def fileText (file : Except FileFault ByteArray) : Except Fault String :=
  match file with
  | .error fault => .error (.unreadable fault.reason)
  | .ok content =>
    match String.fromUTF8? content with
    | some text => .ok text
    | none => .error (.unreadable FileFault.notText.reason)

namespace Module

/-- The module that a text holds. -/
def parse (text : String) : Except Fault Module :=
  match Document.Module.decode text with
  | .error mismatch => .error (.undecodable mismatch (mismatch.place? text))
  | .ok document => ofDocument document

/-- The module that a file holds. -/
def load (file : Except FileFault ByteArray) : Logged (Except Fault Module) :=
  match fileText file >>= parse with
  | .error fault => ⟨.error fault, []⟩
  | .ok module =>
    ⟨.ok module, [⟨.debug, "module " ++ module.name ++ " loaded with " ++
      toString module.functions.length ++ " functions"⟩]⟩

/-- The range report on the module that a file holds; `none` if an analysis takes more evaluations
than there is fuel. -/
def analyze (fuel : Nat) (options : Options) (file : Except FileFault ByteArray) :
    Option (Logged (Except Fault String)) :=
  let loaded := load file
  match loaded.value with
  | .error fault => some ⟨.error fault, loaded.log⟩
  | .ok module =>
    (Workflow.execute fuel ⟨module, options⟩ .range).map fun result =>
      ⟨result.value.map Output.report, loaded.log ++ result.log⟩

end Module

end ValueRange

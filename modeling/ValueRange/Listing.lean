import ValueRange.Program.Printer

/-!
# Listings

Texts that list what a function consists of.
-/

namespace ValueRange.Function

/-- Announces a function. -/
def announcement (function : Function) : String := "Visiting function: " ++ function.name ++ "\n"

/-- Number of instructions of a function, terminators included. -/
def count (function : Function) : Nat :=
  match function.body with
  | none => 0
  | some body => body.count

/-- Counts the instructions of a function. -/
def countListing (function : Function) : String :=
  "Function " ++ function.name ++ " contains " ++ toString function.count ++
    " LLVM instructions\n"

/-- Entry of an instruction that is not tracked, or of a terminator. -/
def plainEntry (text mnemonic : String) : String :=
  "   " ++ text ++ " \x7bkind = " ++ mnemonic ++ "\x7d\n"

/-- Entry of the instruction at a position. -/
def instructionEntry (printer : Printer) (id : Nat) : Except Fault String := do
  let node ← printer.body.node id
  let text ← printer.instruction id
  if node.instruction.tracked then
    pure ("-->" ++ text ++ "\n")
  else
    pure (plainEntry text node.instruction.mnemonic)

/-- Entries of a block. -/
def blockEntries (printer : Printer) (block : Block) : Except Fault (List String) := do
  let entries ← block.sequence.mapM (instructionEntry printer)
  let text ← printer.terminator block.terminator
  pure (entries ++ [plainEntry text block.terminator.mnemonic])

/-- Entries of all instructions, block after block. -/
def instructionEntries (function : Function) : Except Fault (List String) :=
  match function.body with
  | none => pure []
  | some body => do
    let entries ← body.blocks.mapM (blockEntries (function.printer body))
    pure entries.flatten

/-- Lists every instruction of a function and marks the tracked ones. -/
def instructionListing (function : Function) : Except Fault String := do
  let entries ← function.instructionEntries
  pure ("Supported instructions in function: " ++ function.name ++ "\n" ++ String.join entries)

/-- Entries of a tracked instruction and of its tracked users. -/
def definitionEntries (printer : Printer) (id : Nat) : Except Fault (List String) := do
  let text ← printer.instruction id
  let users ← printer.body.findTrackedUsers id
  let texts ← users.mapM printer.instruction
  pure ((text ++ "\n") :: texts.map fun text => "  " ++ text ++ "\n")

/-- Entries of all tracked instructions and of their tracked users. -/
def userEntries (function : Function) : Except Fault (List String) :=
  match function.body with
  | none => pure []
  | some body => do
    let entries ← body.trackedIds.mapM (definitionEntries (function.printer body))
    pure entries.flatten

/-- Lists every tracked instruction of a function with its tracked users. -/
def userListing (function : Function) : Except Fault String := do
  let entries ← function.userEntries
  pure ("Supported uses of supported instructions in function: " ++ function.name ++ "\n" ++
    String.join entries)

end ValueRange.Function

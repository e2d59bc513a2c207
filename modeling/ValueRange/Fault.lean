import ValueRange.Json.Decoder
import ValueRange.Program.Opcode
import ValueRange.Program.Ty

/-!
# Faults

Everything that can stop loading, checking or analysing a module, one constructor for each cause.
The category and the wording of a fault are functions of its cause.
-/

namespace ValueRange

/-- Why a module cannot be loaded, checked or analysed. -/
inductive Fault where
  /-- The file cannot be read. -/
  | unreadable (reason : String)
  /-- The text is not a module document; where it fails to be one may be known. -/
  | undecodable (mismatch : Json.Mismatch) (place : Option Json.Place)
  /-- An integer type without bits. -/
  | zeroWidth
  /-- A floating point type of an unknown width. -/
  | floatWidth (width : Nat)
  /-- A constant of one kind with a type of another. -/
  | constantKind (ty : Ty)
  /-- An integer constant of more than 64 bits. -/
  | wideConstant
  /-- A text that is no decimal integer. -/
  | malformedLiteral (literal : String)
  /-- A decimal integer that its type cannot hold. -/
  | literalRange (literal : String) (bits : Nat)
  /-- A mnemonic that its family does not have. -/
  | unknownOpcode (family : OpcodeFamily) (mnemonic : String)
  /-- A phi node that cannot be reached. -/
  | emptyPhi
  /-- A comparison whose result is not a truth value. -/
  | compareType
  /-- An allocation whose result is not a pointer. -/
  | allocaType
  /-- A load whose result is not of the type it reads. -/
  | loadType
  /-- A store with a result. -/
  | storeType
  /-- A terminator with a result. -/
  | terminatorType
  /-- Two functions of one name. -/
  | duplicateFunction (name : String)
  /-- Two blocks of one function with the same label. -/
  | duplicateLabel
  /-- Two instructions of one function with the same index. -/
  | duplicateIndex
  /-- A reference to a parameter that the function does not have. -/
  | unknownArgument
  /-- A reference to a parameter with another type than it has. -/
  | argumentType
  /-- A reference to an instruction that the function does not have. -/
  | unknownInstruction
  /-- A reference to an instruction with another type than it has. -/
  | instructionType
  /-- An operand of a wrong type. -/
  | operandType (expected actual : Ty)
  /-- A reference to a block that the function does not have. -/
  | unknownBlock (label : Nat)
  /-- A terminator among the instructions before it. -/
  | terminatorInBody
  /-- A block that does not end in a terminator. -/
  | missingTerminator
  /-- A return that does not fit the type of the function. -/
  | returnType
  /-- A tracked binary operator that the analysis does not model. -/
  | unsupportedOperator (opcode : BinaryOp)
  /-- A tracked comparison that the analysis does not model. -/
  | unsupportedPredicate (predicate : Predicate)
  /-- An instruction that the analysis does not track. -/
  | untracked (mnemonic : String)
  /-- An identifier beyond the arena of its function. -/
  | unknownNode (id : Nat)
deriving DecidableEq, Repr

/-- A class of faults. -/
inductive FaultCategory where
  | loading
  | assumption
  | unsupported
  | invariant
deriving DecidableEq, Repr

/-- Label of a category in messages. -/
def FaultCategory.label : FaultCategory → String
  | loading => "loading"
  | assumption => "assumption"
  | unsupported => "unsupported"
  | invariant => "invariant"

namespace Fault

/-- The class of a fault. -/
def category : Fault → FaultCategory
  | unreadable _ => .loading
  | undecodable _ _ => .loading
  | zeroWidth => .assumption
  | floatWidth _ => .assumption
  | constantKind _ => .assumption
  | wideConstant => .unsupported
  | malformedLiteral _ => .assumption
  | literalRange _ _ => .assumption
  | unknownOpcode _ _ => .assumption
  | emptyPhi => .assumption
  | compareType => .assumption
  | allocaType => .assumption
  | loadType => .assumption
  | storeType => .assumption
  | terminatorType => .assumption
  | duplicateFunction _ => .invariant
  | duplicateLabel => .invariant
  | duplicateIndex => .invariant
  | unknownArgument => .invariant
  | argumentType => .invariant
  | unknownInstruction => .invariant
  | instructionType => .invariant
  | operandType _ _ => .invariant
  | unknownBlock _ => .invariant
  | terminatorInBody => .invariant
  | missingTerminator => .invariant
  | returnType => .invariant
  | unsupportedOperator _ => .invariant
  | unsupportedPredicate _ => .invariant
  | untracked _ => .invariant
  | unknownNode _ => .invariant

/-- What is wrong, in words. -/
def description : Fault → String
  | unreadable reason => "Unable to read module: " ++ reason
  | undecodable mismatch place =>
    match mismatch.detail?, place with
    | some detail, some place =>
      "Error during deserialization: " ++ detail ++ " at " ++ place.text
    | some detail, none => "Error during deserialization: " ++ detail
    | none, _ => "Error during deserialization"
  | zeroWidth => "integer type with zero width"
  | floatWidth width => "floating point type with unexpected width " ++ toString width
  | constantKind ty => "constant does not match its type " ++ ty.text
  | wideConstant => "integer constant wider than 64 bits"
  | malformedLiteral literal => "malformed integer literal `" ++ literal ++ "`"
  | literalRange literal bits =>
    "integer literal " ++ literal ++ " does not fit into " ++ (Ty.int bits).text
  | unknownOpcode family mnemonic => "unknown " ++ family.title ++ " `" ++ mnemonic ++ "`"
  | emptyPhi => "PhiNode without incoming values"
  | compareType => "ICmpInst should return an i1 type"
  | allocaType => "AllocaInst should return a pointer type"
  | loadType => "LoadInst mismatch between result type and pointee type"
  | storeType => "StoreInst should have void type"
  | terminatorType => "all terminator instructions must have void type"
  | duplicateFunction name => "duplicated function `" ++ name ++ "`"
  | duplicateLabel => "duplicated block labels"
  | duplicateIndex => "duplicated instruction index"
  | unknownArgument => "invalid argument index"
  | argumentType => "argument type mismatch"
  | unknownInstruction => "invalid instruction index"
  | instructionType => "instruction type mismatch"
  | operandType expected actual =>
    "operand type mismatch: expect " ++ expected.text ++ ", actual " ++ actual.text
  | unknownBlock label => "reference to unknown block " ++ toString label
  | terminatorInBody => "malformed block with terminator instruction in the body"
  | missingTerminator => "malformed block with non-terminator instruction"
  | returnType => "return type mismatch"
  | unsupportedOperator opcode =>
    "unsupported binary operator `" ++ opcode.mnemonic ++ "` on a tracked instruction"
  | unsupportedPredicate predicate =>
    "unsupported comparison predicate `" ++ predicate.mnemonic ++ "` on a tracked instruction"
  | untracked mnemonic => "instruction `" ++ mnemonic ++ "` is not tracked"
  | unknownNode id => "no instruction at position " ++ toString id

/-- The message shown for a fault. -/
def message (fault : Fault) : String :=
  "[irange::" ++ fault.category.label ++ "] " ++ fault.description

end Fault

end ValueRange

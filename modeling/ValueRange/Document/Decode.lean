import ValueRange.Document.Basic
import ValueRange.Json.Decoder

/-!
# Reading module documents

One decoder for each part of a document. The order of fields and variants is the declared one: it
decides which missing field is reported, what an array form means, and how an unknown variant is
described.
-/

namespace ValueRange.Document

open Json Json.Decoder

/-- Reads a type. -/
def TypeExpr.decoder : Decoder TypeExpr :=
  oneOf [
    .unit "Void" .void,
    .holding "Int" (record1 (.required "width" natural) .int),
    .holding "Float" (record1 (.required "width" natural) .float),
    .unit "Pointer" .pointer,
    .unit "Label" .label,
    .holding "Other" (record1 (.required "name" text) .other)]

/-- Reads what a constant is. -/
def Literal.decoder : Decoder Literal :=
  oneOf [
    .holding "Int" (record1 (.required "value" text) .int),
    .holding "Float" (record1 (.required "value" text) .float),
    .unit "Null" .null,
    .unit "Undef" .undef,
    .holding "Function" (record1 (.required "name" text) .function),
    .holding "Variable" (record1 (.required "name" text) .global)]

/-- Reads a constant. -/
def Constant.decoder : Decoder Constant :=
  record2 (.required "ty" TypeExpr.decoder) (.required "repr" Literal.decoder) .mk

/-- Reads a reference to a value. -/
def Operand.decoder : Decoder Operand :=
  oneOf [
    .holding "Argument"
      (record2 (.required "ty" TypeExpr.decoder) (.required "index" natural) .argument),
    .holding "Constant" (.constant <$> Constant.decoder),
    .holding "Instruction"
      (record2 (.required "ty" TypeExpr.decoder) (.required "index" natural) .instruction)]

/-- Reads an incoming edge of a phi node. -/
def Incoming.decoder : Decoder Incoming :=
  record2 (.required "value" Operand.decoder) (.required "block" natural) .mk

/-- Reads what an instruction does. -/
def Operation.decoder : Decoder Operation :=
  let operand := Operand.decoder
  let ty := TypeExpr.decoder
  oneOf [
    .holding "Phi" (record1 (.required "incoming" (list Incoming.decoder)) .phi),
    .holding "Select"
      (record3 (.required "cond" operand) (.required "then_value" operand)
        (.required "else_value" operand) .select),
    .holding "Binary"
      (record3 (.required "opcode" text) (.required "lhs" operand) (.required "rhs" operand)
        .binary),
    .holding "Compare"
      (record3 (.required "predicate" text) (.required "lhs" operand) (.required "rhs" operand)
        .compare),
    .holding "Cast" (record2 (.required "opcode" text) (.required "operand" operand) .cast),
    .holding "Alloca"
      (record2 (.required "allocated_type" ty) (.optional "size" operand) .alloca),
    .holding "Load"
      (record2 (.required "pointee_type" ty) (.required "pointer" operand) .load),
    .holding "Store"
      (record3 (.required "pointee_type" ty) (.required "pointer" operand)
        (.required "value" operand) .store),
    .holding "Call"
      (record2 (.required "callee" operand) (.required "args" (list operand)) .call),
    .holding "Other"
      (record2 (.required "opcode" text) (.required "operands" (list operand)) .other),
    .holding "Goto" (record1 (.required "target" natural) .goto),
    .holding "Branch"
      (record3 (.required "cond" operand) (.required "then_case" natural)
        (.required "else_case" natural) .branch),
    .holding "Return" (record1 (.optional "value" operand) .ret),
    .unit "Unreachable" .unreachable]

/-- Reads an instruction. -/
def Instruction.decoder : Decoder Instruction :=
  record4 (.required "ty" TypeExpr.decoder) (.required "index" natural) (.optional "name" text)
    (.required "repr" Operation.decoder) .mk

/-- Reads a block. -/
def Block.decoder : Decoder Block :=
  record4 (.required "label" natural) (.optional "name" text)
    (.required "body" (list Instruction.decoder)) (.required "terminator" Instruction.decoder) .mk

/-- Reads a parameter. -/
def Parameter.decoder : Decoder Parameter :=
  record2 (.optional "name" text) (.required "ty" TypeExpr.decoder) .mk

/-- Reads a function. -/
def Function.decoder : Decoder Function :=
  record4 (.required "name" text) (.withDefault "params" (list Parameter.decoder) [])
    (.required "ret" TypeExpr.decoder) (.required "blocks" (list Block.decoder)) .mk

/-- Reads a module. -/
def Module.decoder : Decoder Module :=
  record2 (.required "name" text) (.required "functions" (list Function.decoder)) .mk

/-- The module document that a text holds. -/
def Module.decode (text : String) : Except Mismatch Module := Module.decoder.run text

end ValueRange.Document

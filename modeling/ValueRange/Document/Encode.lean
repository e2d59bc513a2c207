import ValueRange.Document.Basic
import ValueRange.Json.Token

/-!
# Writing module documents

Every field is written, in the declared order, an absent value as `null`; a variant without content
is written as its name.
-/

namespace ValueRange.Json.Token

variable {α : Type}

/-- Token of a natural number. -/
def ofNatural (value : UInt64) : List Token := [.number (some value)]

/-- Token of a string. -/
def ofText (content : String) : List Token := [.string (some content)]

/-- Tokens of a value that may be absent. -/
def ofOption (item : α → List Token) : Option α → List Token
  | none => [.null]
  | some value => item value

/-- Parts with commas between them. -/
def separated : List (List Token) → List Token
  | [] => []
  | [last] => last
  | first :: rest => first ++ .comma :: separated rest

/-- Tokens of an array. -/
def ofList (item : α → List Token) (values : List α) : List Token :=
  .openBracket :: separated (values.map item) ++ [.closeBracket]

/-- Tokens of an object with the given members. -/
def object (members : List (String × List Token)) : List Token :=
  .openBrace :: separated (members.map fun (key, value) => .string (some key) :: .colon :: value) ++
    [.closeBrace]

/-- Tokens of a variant with content. -/
def variant (name : String) (content : List Token) : List Token := object [(name, content)]

end ValueRange.Json.Token

namespace ValueRange.Document

open Json Json.Token

/-- Tokens of a type. -/
def TypeExpr.tokens : TypeExpr → List Token
  | .void => ofText "Void"
  | .int width => variant "Int" (object [("width", ofNatural width)])
  | .float width => variant "Float" (object [("width", ofNatural width)])
  | .pointer => ofText "Pointer"
  | .label => ofText "Label"
  | .other name => variant "Other" (object [("name", ofText name)])

/-- Tokens of what a constant is. -/
def Literal.tokens : Literal → List Token
  | .int value => variant "Int" (object [("value", ofText value)])
  | .float value => variant "Float" (object [("value", ofText value)])
  | .null => ofText "Null"
  | .undef => ofText "Undef"
  | .function name => variant "Function" (object [("name", ofText name)])
  | .global name => variant "Variable" (object [("name", ofText name)])

/-- Tokens of a constant. -/
def Constant.tokens (constant : Constant) : List Token :=
  object [("ty", constant.ty.tokens), ("repr", constant.repr.tokens)]

/-- Tokens of a reference to a value. -/
def Operand.tokens : Operand → List Token
  | .argument ty index =>
    variant "Argument" (object [("ty", ty.tokens), ("index", ofNatural index)])
  | .constant value => variant "Constant" value.tokens
  | .instruction ty index =>
    variant "Instruction" (object [("ty", ty.tokens), ("index", ofNatural index)])

/-- Tokens of an incoming edge of a phi node. -/
def Incoming.tokens (incoming : Incoming) : List Token :=
  object [("value", incoming.value.tokens), ("block", ofNatural incoming.block)]

/-- Tokens of what an instruction does. -/
def Operation.tokens : Operation → List Token
  | .phi incoming => variant "Phi" (object [("incoming", ofList Incoming.tokens incoming)])
  | .select cond thenValue elseValue =>
    variant "Select" (object [("cond", cond.tokens), ("then_value", thenValue.tokens),
      ("else_value", elseValue.tokens)])
  | .binary opcode lhs rhs =>
    variant "Binary" (object [("opcode", ofText opcode), ("lhs", lhs.tokens),
      ("rhs", rhs.tokens)])
  | .compare predicate lhs rhs =>
    variant "Compare" (object [("predicate", ofText predicate), ("lhs", lhs.tokens),
      ("rhs", rhs.tokens)])
  | .cast opcode operand =>
    variant "Cast" (object [("opcode", ofText opcode), ("operand", operand.tokens)])
  | .alloca allocatedType size =>
    variant "Alloca" (object [("allocated_type", allocatedType.tokens),
      ("size", ofOption Operand.tokens size)])
  | .load pointeeType pointer =>
    variant "Load" (object [("pointee_type", pointeeType.tokens), ("pointer", pointer.tokens)])
  | .store pointeeType pointer value =>
    variant "Store" (object [("pointee_type", pointeeType.tokens), ("pointer", pointer.tokens),
      ("value", value.tokens)])
  | .call callee args =>
    variant "Call" (object [("callee", callee.tokens), ("args", ofList Operand.tokens args)])
  | .other opcode operands =>
    variant "Other" (object [("opcode", ofText opcode),
      ("operands", ofList Operand.tokens operands)])
  | .goto target => variant "Goto" (object [("target", ofNatural target)])
  | .branch cond thenCase elseCase =>
    variant "Branch" (object [("cond", cond.tokens), ("then_case", ofNatural thenCase),
      ("else_case", ofNatural elseCase)])
  | .ret value => variant "Return" (object [("value", ofOption Operand.tokens value)])
  | .unreachable => ofText "Unreachable"

/-- Tokens of an instruction. -/
def Instruction.tokens (instruction : Instruction) : List Token :=
  object [("ty", instruction.ty.tokens), ("index", ofNatural instruction.index),
    ("name", ofOption ofText instruction.name), ("repr", instruction.repr.tokens)]

/-- Tokens of a block. -/
def Block.tokens (block : Block) : List Token :=
  object [("label", ofNatural block.label), ("name", ofOption ofText block.name),
    ("body", ofList Instruction.tokens block.body), ("terminator", block.terminator.tokens)]

/-- Tokens of a parameter. -/
def Parameter.tokens (parameter : Parameter) : List Token :=
  object [("name", ofOption ofText parameter.name), ("ty", parameter.ty.tokens)]

/-- Tokens of a function. -/
def Function.tokens (function : Function) : List Token :=
  object [("name", ofText function.name), ("params", ofList Parameter.tokens function.params),
    ("ret", function.ret.tokens), ("blocks", ofList Block.tokens function.blocks)]

/-- Tokens of a module. -/
def Module.tokens (module : Module) : List Token :=
  object [("name", ofText module.name), ("functions", ofList Function.tokens module.functions)]

/-- Write a type as text. -/
def TypeExpr.encode (ty : TypeExpr) : String := String.ofList (render ty.tokens)

/-- Write a module document as text. -/
def Module.encode (module : Module) : String := String.ofList (render module.tokens)

end ValueRange.Document

import ValueRange.Program.Body

/-!
# Written form of instructions

Instructions are written in an assembly-like form. Results, parameters and blocks go by their names;
those without a name go by their index, position or label. The name of a result is looked up in the
arena, so an operand beyond it cannot be written.
-/

namespace ValueRange

/-- What the written form of an instruction depends on. -/
structure Printer where
  /-- The parameters of the function. -/
  params : List Parameter
  /-- The body of the function. -/
  body : Body

namespace Printer

/-- The register that holds the result of an instruction. -/
def register (printer : Printer) (id : Nat) : Except Fault String := do
  let node ← printer.body.node id
  pure ("%" ++ node.name.getD (toString node.index.toNat))

/-- Written form of an operand. -/
def value (printer : Printer) : Value → Except Fault String
  | .constant value _ => pure value.text
  | .argument index _ =>
    pure ("%" ++ ((printer.params[index]?).bind Parameter.name).getD ("arg" ++ toString index))
  | .register id _ => printer.register id

/-- Written form of an operand after its type. -/
def typed (printer : Printer) (value : Value) : Except Fault String := do
  let text ← printer.value value
  pure (value.ty.text ++ " " ++ text)

/-- Operands after their types, with commas between them. -/
def typedList (printer : Printer) (values : List Value) : Except Fault String := do
  let texts ← values.mapM printer.typed
  pure (", ".intercalate texts)

/-- Written form of a reference to a block. -/
def block (printer : Printer) (label : UInt64) : String :=
  "%" ++ ((printer.body.block? label).bind Block.name).getD (Block.labelText label)

/-- Written form of an incoming edge of a phi node. -/
def incoming (printer : Printer) (edge : Value × UInt64) : Except Fault String := do
  let text ← printer.value edge.1
  pure ("[ " ++ text ++ ", " ++ printer.block edge.2 ++ " ]")

/-- Written form of what an instruction with a result of the given type does. -/
def operation (printer : Printer) (ty : Ty) : Instruction → Except Fault String
  | .phi incoming => do
    let edges ← incoming.mapM printer.incoming
    pure ("phi " ++ ty.text ++ " " ++ ", ".intercalate edges)
  | .select cond thenValue elseValue => do
    let operands ← printer.typedList [cond, thenValue, elseValue]
    pure ("select " ++ operands)
  | .binary opcode lhs rhs => do
    let left ← printer.value lhs
    let right ← printer.value rhs
    pure (opcode.mnemonic ++ " " ++ ty.text ++ " " ++ left ++ ", " ++ right)
  | .compare predicate lhs rhs => do
    let left ← printer.value lhs
    let right ← printer.value rhs
    pure ("icmp " ++ predicate.mnemonic ++ " " ++ lhs.ty.text ++ " " ++ left ++ ", " ++ right)
  | .cast opcode operand => do
    let operand ← printer.typed operand
    pure (opcode.mnemonic ++ " " ++ operand ++ " to " ++ ty.text)
  | .alloca allocatedType none => pure ("alloca " ++ allocatedType.text)
  | .alloca allocatedType (some size) => do
    let size ← printer.typed size
    pure ("alloca " ++ allocatedType.text ++ ", " ++ size)
  | .load pointeeType pointer => do
    let pointer ← printer.typed pointer
    pure ("load " ++ pointeeType.text ++ ", " ++ pointer)
  | .store _ pointer value => do
    let value ← printer.typed value
    let pointer ← printer.typed pointer
    pure ("store " ++ value ++ ", " ++ pointer)
  | .call callee args => do
    let callee ← printer.value callee
    let args ← printer.typedList args
    pure ("call " ++ ty.text ++ " " ++ callee ++ "(" ++ args ++ ")")
  | .other opcode [] => pure opcode
  | .other opcode operands => do
    let operands ← printer.typedList operands
    pure (opcode ++ " " ++ operands)

/-- Written form of the instruction at a position, with the register it assigns if it has a
result. -/
def instruction (printer : Printer) (id : Nat) : Except Fault String := do
  let node ← printer.body.node id
  let operation ← printer.operation node.ty node.instruction
  if node.ty = .void then
    pure operation
  else
    let register ← printer.register id
    pure (register ++ " = " ++ operation)

/-- Written form of a terminator. -/
def terminator (printer : Printer) : Terminator → Except Fault String
  | .goto target => pure ("br label " ++ printer.block target)
  | .branch cond thenCase elseCase => do
    let cond ← printer.typed cond
    pure ("br " ++ cond ++ ", label " ++ printer.block thenCase ++ ", label " ++
      printer.block elseCase)
  | .ret none => pure "ret void"
  | .ret (some value) => do
    let value ← printer.typed value
    pure ("ret " ++ value)
  | .unreachable => pure "unreachable"

end Printer

/-- The printer of a function with a body. -/
def Function.printer (function : Function) (body : Body) : Printer := ⟨function.params, body⟩

end ValueRange

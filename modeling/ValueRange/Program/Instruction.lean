import ValueRange.Program.Constant

/-!
# Values, instructions and terminators

The operands and operations of a checked program. Results of instructions are referred to by their
position in the arena of the function, blocks by their labels.
-/

namespace ValueRange

/-- An operand. -/
inductive Value where
  | constant (value : Constant) (ty : Ty)
  /-- A parameter of the function. -/
  | argument (index : Nat) (ty : Ty)
  /-- The result of the instruction at a position of the arena. -/
  | register (id : Nat) (ty : Ty)
deriving DecidableEq, Repr

/-- Type of an operand. -/
def Value.ty : Value → Ty
  | constant _ ty => ty
  | argument _ ty => ty
  | register _ ty => ty

/-- The position an operand refers to. -/
def Value.register? : Value → Option Nat
  | register id _ => some id
  | _ => none

/-- An instruction that does not end its block. -/
inductive Instruction where
  /-- The value that belongs to the block control comes from. -/
  | phi (incoming : List (Value × UInt64))
  | select (cond thenValue elseValue : Value)
  | binary (opcode : BinaryOp) (lhs rhs : Value)
  | compare (predicate : Predicate) (lhs rhs : Value)
  | cast (opcode : CastOp) (operand : Value)
  | alloca (allocatedType : Ty) (size : Option Value)
  | load (pointeeType : Ty) (pointer : Value)
  | store (pointeeType : Ty) (pointer value : Value)
  | call (callee : Value) (args : List Value)
  /-- An operation that is not modelled. -/
  | other (opcode : String) (operands : List Value)
deriving DecidableEq, Repr

namespace Instruction

/-- The operands in the order of the written form, a callee last. -/
def operands : Instruction → List Value
  | phi incoming => incoming.map Prod.fst
  | select cond thenValue elseValue => [cond, thenValue, elseValue]
  | binary _ lhs rhs => [lhs, rhs]
  | compare _ lhs rhs => [lhs, rhs]
  | cast _ operand => [operand]
  | alloca _ size => size.toList
  | load _ pointer => [pointer]
  | store _ pointer value => [value, pointer]
  | call callee args => args ++ [callee]
  | other _ operands => operands

/-- The positions that the operands refer to. -/
def registers (instruction : Instruction) : List Nat :=
  instruction.operands.filterMap Value.register?

/-- Mnemonic of an instruction. -/
def mnemonic : Instruction → String
  | phi _ => "phi"
  | select _ _ _ => "select"
  | binary opcode _ _ => opcode.mnemonic
  | compare _ _ _ => "icmp"
  | cast opcode _ => opcode.mnemonic
  | alloca _ _ => "alloca"
  | load _ _ => "load"
  | store _ _ _ => "store"
  | call _ _ => "call"
  | other opcode _ => opcode

/-- Whether the range analysis tracks the result. -/
def tracked : Instruction → Bool
  | phi _ => true
  | select _ _ _ => true
  | binary _ _ _ => true
  | compare _ _ _ => true
  | alloca _ _ => true
  | load _ _ => true
  | call _ _ => true
  | cast _ _ => false
  | store _ _ _ => false
  | other _ _ => false

end Instruction

/-- The last instruction of a block. -/
inductive Terminator where
  | goto (target : UInt64)
  | branch (cond : Value) (thenCase elseCase : UInt64)
  | ret (value : Option Value)
  | unreachable
deriving DecidableEq, Repr

/-- Mnemonic of a terminator. -/
def Terminator.mnemonic : Terminator → String
  | goto _ => "br"
  | branch _ _ _ => "br"
  | ret _ => "ret"
  | unreachable => "unreachable"

end ValueRange

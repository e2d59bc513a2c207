/-!
# Module documents

The shape of a serialized program module, before anything about it has been checked: types may have
impossible widths, operands may refer to nothing, opcodes are plain text.
-/

namespace ValueRange.Document

/-- A type as written. -/
inductive TypeExpr where
  | void
  | int (width : UInt64)
  | float (width : UInt64)
  | pointer
  | label
  | other (name : String)
deriving DecidableEq, Repr

/-- What a constant is, apart from its type. Numbers are kept as text. -/
inductive Literal where
  | int (value : String)
  | float (value : String)
  | null
  | undef
  /-- Address of a function. -/
  | function (name : String)
  /-- Address of a global variable. -/
  | global (name : String)
deriving DecidableEq, Repr

/-- A typed constant. -/
structure Constant where
  /-- Its type. -/
  ty : TypeExpr
  /-- Its value. -/
  repr : Literal
deriving DecidableEq, Repr

/-- A reference to a value. -/
inductive Operand where
  /-- A parameter of the function, by position. -/
  | argument (ty : TypeExpr) (index : UInt64)
  | constant (value : Constant)
  /-- The result of an instruction, by the index it carries. -/
  | instruction (ty : TypeExpr) (index : UInt64)
deriving DecidableEq, Repr

/-- One way of reaching a phi node. -/
structure Incoming where
  /-- The value it takes then. -/
  value : Operand
  /-- Label of the block control comes from. -/
  block : UInt64
deriving DecidableEq, Repr

/-- What an instruction does. -/
inductive Operation where
  | phi (incoming : List Incoming)
  | select (cond thenValue elseValue : Operand)
  | binary (opcode : String) (lhs rhs : Operand)
  | compare (predicate : String) (lhs rhs : Operand)
  | cast (opcode : String) (operand : Operand)
  | alloca (allocatedType : TypeExpr) (size : Option Operand)
  | load (pointeeType : TypeExpr) (pointer : Operand)
  | store (pointeeType : TypeExpr) (pointer value : Operand)
  | call (callee : Operand) (args : List Operand)
  /-- An operation that is not modelled. -/
  | other (opcode : String) (operands : List Operand)
  | goto (target : UInt64)
  | branch (cond : Operand) (thenCase elseCase : UInt64)
  | ret (value : Option Operand)
  | unreachable
deriving DecidableEq, Repr

/-- An instruction of a block, or its terminator. -/
structure Instruction where
  /-- Type of the result. -/
  ty : TypeExpr
  /-- The index by which operands refer to it. -/
  index : UInt64
  /-- Name of the result. -/
  name : Option String
  /-- What it does. -/
  repr : Operation
deriving DecidableEq, Repr

/-- A basic block. -/
structure Block where
  /-- The label by which instructions refer to it. -/
  label : UInt64
  /-- Name of the block. -/
  name : Option String
  /-- Its instructions but the last. -/
  body : List Instruction
  /-- Its last instruction. -/
  terminator : Instruction
deriving DecidableEq, Repr

/-- A parameter of a function. -/
structure Parameter where
  /-- Name of the parameter. -/
  name : Option String
  /-- Its type. -/
  ty : TypeExpr
deriving DecidableEq, Repr

/-- A function; a declaration has no block. -/
structure Function where
  /-- Name of the function. -/
  name : String
  /-- Its parameters. -/
  params : List Parameter
  /-- Type of its result. -/
  ret : TypeExpr
  /-- Its blocks. -/
  blocks : List Block
deriving DecidableEq, Repr

/-- A program module. -/
structure Module where
  /-- Name of the module. -/
  name : String
  /-- Its functions. -/
  functions : List Function
deriving DecidableEq, Repr

end ValueRange.Document

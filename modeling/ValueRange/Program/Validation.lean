import ValueRange.Program.Body

/-!
# Checking documents

A document becomes a program if its references resolve and its types fit. The checks run in the order
of the document: names of functions first; in each function the types of parameters and result, the
labels, the types and indices of all instructions, and last the operands of one instruction after
the other. The positions of instructions are handed out with their indices, before any operand is
looked at, so that an operand may refer to a later instruction.
-/

namespace ValueRange

/-- What an index of a document refers to. -/
structure Definition where
  /-- The index. -/
  index : UInt64
  /-- Position in the arena. -/
  id : Nat
  /-- Type of the result. -/
  ty : Ty
deriving DecidableEq, Repr

/-- The indices that the instructions of a function carry. -/
structure Definitions where
  /-- Instructions with a position in the arena, the latest first. -/
  instructions : List Definition
  /-- Indices of terminators, the latest first. -/
  terminators : List UInt64
deriving DecidableEq, Repr

namespace Definitions

/-- No instruction has been met. -/
def empty : Definitions := ⟨[], []⟩

/-- The instruction that an index refers to. -/
def find? (definitions : Definitions) (index : UInt64) : Option Definition :=
  definitions.instructions.find? fun definition => definition.index = index

/-- Whether an instruction or a terminator carries an index. -/
def taken (definitions : Definitions) (index : UInt64) : Bool :=
  definitions.terminators.contains index || (definitions.find? index).isSome

/-- Give an instruction the next position. -/
def addInstruction (definitions : Definitions) (instruction : Document.Instruction) :
    Except Fault Definitions := do
  let ty ← Ty.ofExpr instruction.ty
  if definitions.taken instruction.index then
    throw .duplicateIndex
  else
    let definition := ⟨instruction.index, definitions.instructions.length, ty⟩
    pure { definitions with instructions := definition :: definitions.instructions }

/-- Note the index of a terminator. -/
def addTerminator (definitions : Definitions) (terminator : Document.Instruction) :
    Except Fault Definitions :=
  if definitions.taken terminator.index then
    throw .duplicateIndex
  else
    pure { definitions with terminators := terminator.index :: definitions.terminators }

/-- Note the instructions of a block. -/
def addBlock (definitions : Definitions) (block : Document.Block) : Except Fault Definitions := do
  let definitions ← block.body.foldlM addInstruction definitions
  definitions.addTerminator block.terminator

/-- The indices of all instructions, which have to differ. -/
def ofBlocks (blocks : List Document.Block) : Except Fault Definitions :=
  blocks.foldlM addBlock empty

end Definitions

/-- What the instructions of a function may refer to. -/
structure Scope where
  /-- Labels of the blocks. -/
  labels : List UInt64
  /-- Indices of the instructions. -/
  definitions : Definitions
  /-- Types of the parameters. -/
  params : List Ty
  /-- Type of the result of the function. -/
  ret : Ty

namespace Scope

/-- An operand of any type. -/
def value (scope : Scope) : Document.Operand → Except Fault Value
  | .constant constant => do
    let ty ← Ty.ofExpr constant.ty
    let value ← Constant.ofLiteral constant.repr ty
    pure (.constant value ty)
  | .argument ty index =>
    match scope.params[index.toNat]? with
    | none => throw .unknownArgument
    | some declared => do
      let ty ← Ty.ofExpr ty
      if declared = ty then pure (.argument index.toNat ty) else throw .argumentType
  | .instruction ty index =>
    match scope.definitions.find? index with
    | none => throw .unknownInstruction
    | some definition => do
      let ty ← Ty.ofExpr ty
      if definition.ty = ty then pure (.register definition.id ty) else throw .instructionType

/-- An operand of an expected type. -/
def valueOf (scope : Scope) (expected : Ty) (operand : Document.Operand) : Except Fault Value := do
  let value ← scope.value operand
  if value.ty = expected then pure value else throw (.operandType expected value.ty)

/-- The label of a block. -/
def label (scope : Scope) (label : UInt64) : Except Fault UInt64 :=
  if scope.labels.contains label then pure label else throw (.unknownBlock label.toNat)

/-- An incoming edge of a phi node. -/
def incoming (scope : Scope) (ty : Ty) (incoming : Document.Incoming) :
    Except Fault (Value × UInt64) := do
  let value ← scope.valueOf ty incoming.value
  let label ← scope.label incoming.block
  pure (value, label)

/-- The operator of a family that a mnemonic names. -/
def opcode {α : Type} (family : OpcodeFamily) (ofMnemonic? : String → Option α)
    (mnemonic : String) : Except Fault α :=
  match ofMnemonic? mnemonic with
  | some opcode => .ok opcode
  | none => .error (.unknownOpcode family mnemonic)

/-- An instruction before the end of its block, with a result of the given type. -/
def operation (scope : Scope) (ty : Ty) : Document.Operation → Except Fault Instruction
  | .phi incoming =>
    if incoming.isEmpty then
      throw .emptyPhi
    else do
      let incoming ← incoming.mapM (scope.incoming ty)
      pure (.phi incoming)
  | .select cond thenValue elseValue => do
    let cond ← scope.valueOf .bool cond
    let thenValue ← scope.valueOf ty thenValue
    let elseValue ← scope.valueOf ty elseValue
    pure (.select cond thenValue elseValue)
  | .binary mnemonic lhs rhs => do
    let opcode ← opcode .binary BinaryOp.ofMnemonic? mnemonic
    let lhs ← scope.valueOf ty lhs
    let rhs ← scope.valueOf ty rhs
    pure (.binary opcode lhs rhs)
  | .compare mnemonic lhs rhs =>
    if ty ≠ .bool then
      throw .compareType
    else do
      let lhs ← scope.value lhs
      let rhs ← scope.valueOf lhs.ty rhs
      let predicate ← opcode .predicate Predicate.ofMnemonic? mnemonic
      pure (.compare predicate lhs rhs)
  | .cast mnemonic operand => do
    let opcode ← opcode .cast CastOp.ofMnemonic? mnemonic
    let operand ← scope.value operand
    pure (.cast opcode operand)
  | .alloca allocatedType size =>
    if ty ≠ .pointer then
      throw .allocaType
    else do
      let size ← size.mapM scope.value
      let allocatedType ← Ty.ofExpr allocatedType
      pure (.alloca allocatedType size)
  | .load pointeeType pointer => do
    let pointeeType ← Ty.ofExpr pointeeType
    if ty ≠ pointeeType then
      throw .loadType
    else
      let pointer ← scope.valueOf .pointer pointer
      pure (.load pointeeType pointer)
  | .store pointeeType pointer value =>
    if ty ≠ .void then
      throw .storeType
    else do
      let pointeeType ← Ty.ofExpr pointeeType
      let pointer ← scope.valueOf .pointer pointer
      let value ← scope.valueOf pointeeType value
      pure (.store pointeeType pointer value)
  | .call callee args => do
    let callee ← scope.valueOf .pointer callee
    let args ← args.mapM scope.value
    pure (.call callee args)
  | .other opcode operands => do
    let operands ← operands.mapM scope.value
    pure (.other opcode operands)
  | .goto _ => throw .terminatorInBody
  | .branch _ _ _ => throw .terminatorInBody
  | .ret _ => throw .terminatorInBody
  | .unreachable => throw .terminatorInBody

/-- The last instruction of a block. -/
def terminator (scope : Scope) (instruction : Document.Instruction) : Except Fault Terminator :=
  if instruction.ty ≠ .void then
    throw .terminatorType
  else
    match instruction.repr with
    | .goto target => do
      let target ← scope.label target
      pure (.goto target)
    | .branch cond thenCase elseCase => do
      let cond ← scope.valueOf .bool cond
      let thenCase ← scope.label thenCase
      let elseCase ← scope.label elseCase
      pure (.branch cond thenCase elseCase)
    | .ret none => if scope.ret = .void then pure (.ret none) else throw .returnType
    | .ret (some value) =>
      if scope.ret = .void then
        throw .returnType
      else do
        let value ← scope.valueOf scope.ret value
        pure (.ret (some value))
    | .unreachable => pure .unreachable
    | _ => throw .missingTerminator

/-- An instruction with its identity, and the position that it was given. -/
def node (scope : Scope) (instruction : Document.Instruction) : Except Fault (Nat × Node) :=
  match scope.definitions.find? instruction.index with
  | none => throw .unknownInstruction
  | some definition => do
    let ty ← Ty.ofExpr instruction.ty
    let operation ← scope.operation ty instruction.repr
    pure (definition.id, ⟨instruction.index, instruction.name, definition.ty, operation⟩)

/-- A block, and its instructions. -/
def block (scope : Scope) (block : Document.Block) : Except Fault (Block × List Node) := do
  let nodes ← block.body.mapM scope.node
  let terminator ← scope.terminator block.terminator
  pure (⟨block.label, block.name, nodes.map Prod.fst, terminator⟩, nodes.map Prod.snd)

/-- Blocks, and their instructions one block after the other. -/
def blocks (scope : Scope) (blocks : List Document.Block) :
    Except Fault (List Block × List Node) := do
  let checked ← blocks.mapM scope.block
  pure (checked.map Prod.fst, checked.flatMap Prod.snd)

end Scope

/-- Check the blocks of a function. -/
def Body.ofDocument (params : List Ty) (ret : Ty) (blocks : List Document.Block) :
    Except Fault Body := do
  let labels := blocks.map Document.Block.label
  if labels.Nodup then
    let definitions ← Definitions.ofBlocks blocks
    let (blocks, nodes) ← Scope.blocks ⟨labels, definitions, params, ret⟩ blocks
    Body.ofNodes blocks nodes
  else
    throw .duplicateLabel

/-- Check a parameter. -/
def Parameter.ofDocument (parameter : Document.Parameter) : Except Fault Parameter := do
  let ty ← Ty.ofExpr parameter.ty
  pure ⟨parameter.name, ty⟩

/-- Check a function. -/
def Function.ofDocument (function : Document.Function) : Except Fault Function := do
  let params ← function.params.mapM Parameter.ofDocument
  let ret ← Ty.ofExpr function.ret
  if function.blocks.isEmpty then
    pure ⟨function.name, params, ret, none⟩
  else
    let body ← Body.ofDocument (params.map Parameter.ty) ret function.blocks
    pure ⟨function.name, params, ret, some body⟩

namespace Module

/-- The first name that an earlier member of the list has too. -/
def repeated? : List String → List String → Option String
  | _, [] => none
  | earlier, name :: names =>
    if earlier.contains name then some name else repeated? (name :: earlier) names

/-- Check a module. -/
def ofDocument (module : Document.Module) : Except Fault Module :=
  match repeated? [] (module.functions.map Document.Function.name) with
  | some name => throw (.duplicateFunction name)
  | none => do
    let functions ← module.functions.mapM Function.ofDocument
    pure ⟨module.name, functions⟩

end Module

end ValueRange

import Mathlib.Logic.Embedding.Basic
import ValueRange.Proofs.Outcome
import ValueRange.Proofs.Stability

/-!
# Numbering

The indices and labels of a document say which operands and targets belong together and mean nothing
beyond that; names mean nothing at all. Replacing the numbers by others, different ones by different
ones, therefore commutes with checking, and the analysis does not see the numbers any more: it works
on positions of the arena, which follow the order of the document.
-/

namespace ValueRange

open Outcome

/-- A change of numbers that keeps different numbers apart. -/
structure Renumbering where
  /-- The new index of an instruction. -/
  index : UInt64 ↪ UInt64
  /-- The new label of a block. -/
  label : UInt64 ↪ UInt64

/-- All numbers stay as they are. -/
def Renumbering.identity : Renumbering := ⟨.refl _, .refl _⟩

/-! ## Renumbered documents -/

namespace Document

/-- An operand with its number replaced. Arguments are counted and keep their positions. -/
def Operand.renumber (numbering : Renumbering) : Operand → Operand
  | argument ty index => argument ty index
  | constant value => constant value
  | instruction ty index => instruction ty (numbering.index index)

/-- An incoming edge with its numbers replaced. -/
def Incoming.renumber (numbering : Renumbering) (incoming : Incoming) : Incoming :=
  ⟨incoming.value.renumber numbering, numbering.label incoming.block⟩

/-- An operation with its numbers replaced. -/
def Operation.renumber (numbering : Renumbering) : Operation → Operation
  | phi incoming => phi (incoming.map (Incoming.renumber numbering))
  | select cond thenValue elseValue =>
    select (cond.renumber numbering) (thenValue.renumber numbering) (elseValue.renumber numbering)
  | binary opcode lhs rhs => binary opcode (lhs.renumber numbering) (rhs.renumber numbering)
  | compare predicate lhs rhs =>
    compare predicate (lhs.renumber numbering) (rhs.renumber numbering)
  | cast opcode operand => cast opcode (operand.renumber numbering)
  | alloca allocatedType size => alloca allocatedType (size.map (Operand.renumber numbering))
  | load pointeeType pointer => load pointeeType (pointer.renumber numbering)
  | store pointeeType pointer value =>
    store pointeeType (pointer.renumber numbering) (value.renumber numbering)
  | call callee args => call (callee.renumber numbering) (args.map (Operand.renumber numbering))
  | other opcode operands => other opcode (operands.map (Operand.renumber numbering))
  | goto target => goto (numbering.label target)
  | branch cond thenCase elseCase =>
    branch (cond.renumber numbering) (numbering.label thenCase) (numbering.label elseCase)
  | ret value => ret (value.map (Operand.renumber numbering))
  | unreachable => unreachable

/-- An instruction with its numbers replaced, without its name. -/
def Instruction.renumber (numbering : Renumbering) (instruction : Instruction) : Instruction :=
  ⟨instruction.ty, numbering.index instruction.index, none, instruction.repr.renumber numbering⟩

/-- A block with its numbers replaced, without names. -/
def Block.renumber (numbering : Renumbering) (block : Block) : Block :=
  ⟨numbering.label block.label, none, block.body.map (Instruction.renumber numbering),
    block.terminator.renumber numbering⟩

/-- A parameter without its name. -/
def Parameter.anonymous (parameter : Parameter) : Parameter := ⟨none, parameter.ty⟩

namespace Function

/-- A function with its numbers replaced, without names. -/
def renumber (numbering : Renumbering) (function : Function) : Function :=
  ⟨"", function.params.map Parameter.anonymous, function.ret,
    function.blocks.map (Block.renumber numbering)⟩

/-- Replacing the numbers of a function gives another one, whatever the names in both are. -/
def Renumbers (numbering : Renumbering) (function other : Function) : Prop :=
  other.renumber .identity = function.renumber numbering

end Function

end Document

/-! ## Renumbered programs -/

/-- An instruction with its labels replaced. -/
def Instruction.renumber (numbering : Renumbering) : Instruction → Instruction
  | phi incoming => phi (incoming.map (Prod.map id numbering.label))
  | instruction => instruction

/-- A terminator with its labels replaced. -/
def Terminator.renumber (numbering : Renumbering) : Terminator → Terminator
  | goto target => goto (numbering.label target)
  | branch cond thenCase elseCase =>
    branch cond (numbering.label thenCase) (numbering.label elseCase)
  | ret value => ret value
  | unreachable => unreachable

/-- An instruction of the arena with its numbers replaced, without its name. -/
def Node.renumber (numbering : Renumbering) (node : Node) : Node :=
  ⟨numbering.index node.index, none, node.ty, node.instruction.renumber numbering⟩

/-- A block with its labels replaced, without its name. -/
def Block.renumber (numbering : Renumbering) (block : Block) : Block :=
  ⟨numbering.label block.label, none, block.sequence, block.terminator.renumber numbering⟩

/-- A body with its numbers replaced, without names. Positions stay as they are. -/
def Body.renumber (numbering : Renumbering) (body : Body) : Body :=
  ⟨body.blocks.map (Block.renumber numbering), body.nodes.map (Node.renumber numbering), body.uses⟩

/-- A parameter without its name. -/
def Parameter.anonymous (parameter : Parameter) : Parameter := ⟨none, parameter.ty⟩

/-- A function with its numbers replaced, without names. -/
def Function.renumber (numbering : Renumbering) (function : Function) : Function :=
  ⟨"", function.params.map Parameter.anonymous, function.ret,
    function.body.map (Body.renumber numbering)⟩

/-- Definitions with their numbers replaced. -/
def Definitions.renumber (numbering : Renumbering) (definitions : Definitions) : Definitions :=
  ⟨definitions.instructions.map fun definition =>
      { definition with index := numbering.index definition.index },
    definitions.terminators.map numbering.index⟩

/-- A scope with its numbers replaced. -/
def Scope.renumber (numbering : Renumbering) (scope : Scope) : Scope :=
  ⟨scope.labels.map numbering.label, scope.definitions.renumber numbering, scope.params, scope.ret⟩

/-! ## Checking renumbered documents -/

section Checking

variable (numbering : Renumbering)

namespace Definitions

theorem find?_renumber (definitions : Definitions) (index : UInt64) :
    (definitions.renumber numbering).find? (numbering.index index) =
      (definitions.find? index).map fun definition =>
        { definition with index := numbering.index definition.index } := by
  simp only [find?, renumber, List.find?_map, Function.comp_def, EmbeddingLike.apply_eq_iff_eq]

theorem taken_renumber (definitions : Definitions) (index : UInt64) :
    (definitions.renumber numbering).taken (numbering.index index) = definitions.taken index := by
  have hterminators : (definitions.terminators.map numbering.index).contains
      (numbering.index index) = definitions.terminators.contains index := by
    simp
  rw [taken, find?_renumber, Option.isSome_map]
  exact congrArg (· || (definitions.find? index).isSome) hterminators

theorem addInstruction_renumber (definitions : Definitions) (instruction : Document.Instruction) :
    ((definitions.renumber numbering).addInstruction (instruction.renumber numbering)).toOption =
      (definitions.addInstruction instruction).toOption.map (renumber numbering) := by
  simp only [addInstruction, Document.Instruction.renumber, taken_renumber]
  refine toOption_bind_same fun ty => toOption_ite_map rfl ?_
  simp only [renumber, List.length_map]
  rfl

theorem addTerminator_renumber (definitions : Definitions) (terminator : Document.Instruction) :
    ((definitions.renumber numbering).addTerminator (terminator.renumber numbering)).toOption =
      (definitions.addTerminator terminator).toOption.map (renumber numbering) := by
  simp only [addTerminator, Document.Instruction.renumber, taken_renumber]
  exact toOption_ite_map rfl rfl

theorem addBlock_renumber (definitions : Definitions) (block : Document.Block) :
    ((definitions.renumber numbering).addBlock (block.renumber numbering)).toOption =
      (definitions.addBlock block).toOption.map (renumber numbering) :=
  toOption_bind_map
    (toOption_foldlM_map (addInstruction_renumber numbering) block.body definitions)
    fun definitions => addTerminator_renumber numbering definitions block.terminator

theorem ofBlocks_renumber (blocks : List Document.Block) :
    (ofBlocks (blocks.map (Document.Block.renumber numbering))).toOption =
      (ofBlocks blocks).toOption.map (renumber numbering) :=
  toOption_foldlM_map (addBlock_renumber numbering) blocks empty

end Definitions

namespace Scope

variable (scope : Scope)

/-- References resolve to the same position. -/
theorem value_renumber (operand : Document.Operand) :
    (scope.renumber numbering).value (operand.renumber numbering) = scope.value operand := by
  cases operand with
  | argument ty index => rfl
  | constant value => rfl
  | instruction ty index =>
      simp only [value, Document.Operand.renumber, renumber, Definitions.find?_renumber]
      cases scope.definitions.find? index <;> rfl

theorem valueOf_renumber (expected : Ty) (operand : Document.Operand) :
    (scope.renumber numbering).valueOf expected (operand.renumber numbering) =
      scope.valueOf expected operand := by
  simp only [valueOf, value_renumber]

theorem label_renumber (label : UInt64) :
    ((scope.renumber numbering).label (numbering.label label)).toOption =
      (scope.label label).toOption.map numbering.label := by
  have hlabels : (scope.labels.map numbering.label).contains (numbering.label label) =
      scope.labels.contains label := by
    simp
  simp only [Scope.label, renumber, hlabels]
  exact toOption_ite_map rfl rfl

theorem incoming_renumber (ty : Ty) (incoming : Document.Incoming) :
    ((scope.renumber numbering).incoming ty (incoming.renumber numbering)).toOption =
      (scope.incoming ty incoming).toOption.map (Prod.map id numbering.label) := by
  simp only [Scope.incoming, Document.Incoming.renumber, valueOf_renumber]
  exact toOption_bind_same fun _ =>
    toOption_bind_map (label_renumber numbering scope incoming.block) fun _ => rfl

theorem mapM_value_renumber (operands : List Document.Operand) :
    (operands.map (Document.Operand.renumber numbering)).mapM (scope.renumber numbering).value =
      operands.mapM scope.value := by
  rw [List.mapM_map]
  exact congrArg (operands.mapM ·) (funext (value_renumber numbering scope))

theorem option_mapM_value_renumber (operand? : Option Document.Operand) :
    (operand?.map (Document.Operand.renumber numbering)).mapM (scope.renumber numbering).value =
      operand?.mapM scope.value := by
  cases operand? with
  | none => rfl
  | some operand => simp only [Option.map_some, Option.mapM_some, value_renumber]

theorem operation_renumber (ty : Ty) (operation : Document.Operation) :
    ((scope.renumber numbering).operation ty (operation.renumber numbering)).toOption =
      (scope.operation ty operation).toOption.map (Instruction.renumber numbering) := by
  cases operation with
  | phi incoming =>
      simp only [Scope.operation, Document.Operation.renumber, List.isEmpty_map]
      refine toOption_ite_map rfl (toOption_bind_map ?_ fun _ => rfl)
      exact toOption_mapM_map (incoming_renumber numbering scope ty) incoming
  -- Without labels the instruction stays as it is, since its operands mean the same positions.
  | select cond thenValue elseValue =>
      simp only [Scope.operation, Document.Operation.renumber, valueOf_renumber]
      exact toOption_bind_same fun _ => toOption_bind_same fun _ => toOption_bind_same fun _ => rfl
  | binary opcode lhs rhs =>
      simp only [Scope.operation, Document.Operation.renumber, valueOf_renumber]
      exact toOption_bind_same fun _ => toOption_bind_same fun _ => toOption_bind_same fun _ => rfl
  | compare predicate lhs rhs =>
      simp only [Scope.operation, Document.Operation.renumber, value_renumber, valueOf_renumber]
      exact toOption_ite_map rfl (toOption_bind_same fun _ =>
        toOption_bind_same fun _ => toOption_bind_same fun _ => rfl)
  | cast opcode operand =>
      simp only [Scope.operation, Document.Operation.renumber, value_renumber]
      exact toOption_bind_same fun _ => toOption_bind_same fun _ => rfl
  | alloca allocatedType size =>
      simp only [Scope.operation, Document.Operation.renumber, option_mapM_value_renumber]
      exact toOption_ite_map rfl (toOption_bind_same fun _ =>
        toOption_bind_same fun _ => rfl)
  | load pointeeType pointer =>
      simp only [Scope.operation, Document.Operation.renumber, valueOf_renumber]
      exact toOption_bind_same fun _ =>
        toOption_ite_map rfl (toOption_bind_same fun _ => rfl)
  | store pointeeType pointer value =>
      simp only [Scope.operation, Document.Operation.renumber, valueOf_renumber]
      exact toOption_ite_map rfl (toOption_bind_same fun _ =>
        toOption_bind_same fun _ => toOption_bind_same fun _ => rfl)
  | call callee args =>
      simp only [Scope.operation, Document.Operation.renumber, valueOf_renumber,
        mapM_value_renumber]
      exact toOption_bind_same fun _ => toOption_bind_same fun _ => rfl
  | other opcode operands =>
      simp only [Scope.operation, Document.Operation.renumber, mapM_value_renumber]
      exact toOption_bind_same fun _ => rfl
  | goto | branch | ret | unreachable => rfl

theorem terminator_renumber (instruction : Document.Instruction) :
    ((scope.renumber numbering).terminator (instruction.renumber numbering)).toOption =
      (scope.terminator instruction).toOption.map (Terminator.renumber numbering) := by
  obtain ⟨ty, index, name, operation⟩ := instruction
  refine toOption_ite_map rfl ?_
  have hlabel := label_renumber numbering scope
  cases operation with
  | goto target => exact toOption_bind_map (hlabel target) fun _ => rfl
  | branch cond thenCase elseCase =>
      simp only [Document.Instruction.renumber, Document.Operation.renumber, valueOf_renumber]
      exact toOption_bind_same fun _ => toOption_bind_map (hlabel thenCase)
        fun _ => toOption_bind_map (hlabel elseCase) fun _ => rfl
  | ret value =>
      cases value with
      | none => exact toOption_ite_map rfl rfl
      | some value =>
          simp only [Document.Instruction.renumber, Document.Operation.renumber, Option.map_some,
            valueOf_renumber]
          exact toOption_ite_map rfl (toOption_bind_same fun _ => rfl)
  | _ => rfl

/-- An instruction keeps its position, as its index is replaced in the table as well. -/
theorem node_renumber (instruction : Document.Instruction) :
    ((scope.renumber numbering).node (instruction.renumber numbering)).toOption =
      (scope.node instruction).toOption.map (Prod.map id (Node.renumber numbering)) := by
  simp only [node, Document.Instruction.renumber, renumber, Definitions.find?_renumber]
  cases scope.definitions.find? instruction.index with
  | none => rfl
  | some definition =>
      exact toOption_bind_same fun ty =>
        toOption_bind_map (operation_renumber numbering scope ty instruction.repr) fun _ => rfl

theorem block_renumber (block : Document.Block) :
    ((scope.renumber numbering).block (block.renumber numbering)).toOption =
      (scope.block block).toOption.map
        (Prod.map (Block.renumber numbering) (List.map (Node.renumber numbering))) := by
  refine toOption_bind_map
    (toOption_mapM_map (node_renumber numbering scope) block.body) fun nodes => ?_
  refine toOption_bind_map (terminator_renumber numbering scope block.terminator)
    fun terminator => ?_
  have hpositions : (nodes.map (Prod.map id (Node.renumber numbering))).map Prod.fst =
      nodes.map Prod.fst := by
    rw [List.map_map]
    rfl
  have hnodes : (nodes.map (Prod.map id (Node.renumber numbering))).map Prod.snd =
      (nodes.map Prod.snd).map (Node.renumber numbering) := by
    rw [List.map_map, List.map_map]
    rfl
  rw [hpositions, hnodes]
  rfl

theorem blocks_renumber (blocks : List Document.Block) :
    ((scope.renumber numbering).blocks (blocks.map (Document.Block.renumber numbering))).toOption =
      (scope.blocks blocks).toOption.map
        (Prod.map (List.map (Block.renumber numbering)) (List.map (Node.renumber numbering))) := by
  refine toOption_bind_map
    (toOption_mapM_map (block_renumber numbering scope) blocks) fun checked => ?_
  have hblocks : (checked.map (Prod.map (Block.renumber numbering)
      (List.map (Node.renumber numbering)))).map Prod.fst =
      (checked.map Prod.fst).map (Block.renumber numbering) := by
    rw [List.map_map, List.map_map]
    rfl
  have hnodes : (checked.map (Prod.map (Block.renumber numbering)
      (List.map (Node.renumber numbering)))).flatMap Prod.snd =
      (checked.flatMap Prod.snd).map (Node.renumber numbering) := by
    rw [List.flatMap_map, List.map_flatMap]
    rfl
  rw [hblocks, hnodes]
  rfl

end Scope

end Checking

/-! ## Uses and runs of renumbered programs -/

section Runs

variable (numbering : Renumbering)

namespace Instruction

variable (instruction : Instruction)

theorem operands_renumber : (instruction.renumber numbering).operands = instruction.operands := by
  cases instruction with
  | phi incoming => simp [renumber, operands]
  | _ => rfl

theorem tracked_renumber : (instruction.renumber numbering).tracked = instruction.tracked := by
  cases instruction <;> rfl

theorem incomingIntervals_renumber (store : Store Interval) (incoming : List (Value × UInt64)) :
    incomingIntervals store (incoming.map (Prod.map id numbering.label)) =
      incomingIntervals store incoming := by
  simp [incomingIntervals]

theorem transfer_renumber (store : Store Interval) :
    (instruction.renumber numbering).transfer store = instruction.transfer store := by
  cases instruction with
  | phi incoming => simp only [renumber, transfer, incomingIntervals_renumber]
  | _ => rfl

end Instruction

namespace Body

theorem useEdges_renumber (nodes : List Node) :
    useEdges (nodes.map (Node.renumber numbering)) = useEdges nodes := by
  simp only [useEdges, List.zipIdx_map, List.flatMap_map, Prod.map_fst, Prod.map_snd, id,
    Instruction.registers, Node.renumber, Instruction.operands_renumber]

theorem ofNodes_renumber (blocks : List Block) (nodes : List Node) :
    (ofNodes (blocks.map (Block.renumber numbering))
        (nodes.map (Node.renumber numbering))).toOption =
      (ofNodes blocks nodes).toOption.map (renumber numbering) := by
  simp only [ofNodes, useEdges_renumber, List.length_map, ← List.map_toArray]
  exact toOption_bind_same fun _ => rfl

variable (body : Body)

theorem node?_renumber (id : Nat) :
    (body.renumber numbering).node? id = (body.node? id).map (Node.renumber numbering) :=
  Array.getElem?_map

theorem tracked_renumber : (body.renumber numbering).tracked = body.tracked := by
  funext id
  simp only [tracked, node?_renumber]
  cases body.node? id with
  | none => rfl
  | some node => exact node.instruction.tracked_renumber numbering

theorem trackedIds_renumber : (body.renumber numbering).trackedIds = body.trackedIds := by
  have hids : (body.renumber numbering).ids = body.ids := congrArg List.range Array.size_map
  rw [trackedIds, hids, tracked_renumber, trackedIds]

theorem node_renumber (id : Nat) :
    (body.renumber numbering).node id = (body.node id).map (Node.renumber numbering) := by
  rw [node, node, node?_renumber]
  cases body.node? id <;> rfl

theorem evaluate_renumber (id : Nat) (store : Store Interval) :
    (body.renumber numbering).evaluate id store = body.evaluate id store := by
  rw [evaluate, evaluate, node_renumber]
  cases body.node id with
  | error fault => rfl
  | ok node => exact node.instruction.transfer_renumber numbering store

theorem findTrackedUsers_renumber (id : Nat) :
    (body.renumber numbering).findTrackedUsers id = body.findTrackedUsers id := by
  refine congrArg (body.users id).filterM (funext fun user => ?_)
  rw [node_renumber]
  cases body.node user with
  | error fault => rfl
  | ok node => exact congrArg Except.ok (node.instruction.tracked_renumber numbering)

theorem transferEvents_renumber (id : Nat) (store : Store Interval) :
    (body.renumber numbering).transferEvents id store = body.transferEvents id store := by
  simp only [transferEvents, node?_renumber, Option.map_map]
  cases body.node? id with
  | none => rfl
  | some node =>
      obtain ⟨_, _, _, instruction⟩ := node
      cases instruction with
      | phi incoming =>
          simp [Node.renumber, Instruction.renumber, Instruction.incomingIntervals_renumber]
      | _ => rfl

theorem runsLike_renumber : (body.renumber numbering).RunsLike body where
  trackedIds := body.trackedIds_renumber numbering
  evaluate := body.evaluate_renumber numbering
  transferEvents := body.transferEvents_renumber numbering
  findTrackedUsers := body.findTrackedUsers_renumber numbering

end Body

theorem Function.ranges?_renumber (function : Function) (fuel : Nat) (options : Options) :
    (function.renumber numbering).ranges? fuel options = function.ranges? fuel options := by
  apply ranges?_eq_of_runsLike
  obtain ⟨name, params, ret, body⟩ := function
  cases body with
  | none => exact .none
  | some body => exact .some (body.runsLike_renumber numbering)

end Runs

/-! ## Independence of the numbering -/

theorem Body.ofDocument_renumber (numbering : Renumbering) (params : List Ty) (ret : Ty)
    (blocks : List Document.Block) :
    (ofDocument params ret (blocks.map (Document.Block.renumber numbering))).toOption =
      (ofDocument params ret blocks).toOption.map (renumber numbering) := by
  have hlabels : (blocks.map (Document.Block.renumber numbering)).map Document.Block.label =
      (blocks.map Document.Block.label).map numbering.label := by
    rw [List.map_map, List.map_map]
    rfl
  simp only [ofDocument, hlabels, List.nodup_map_iff numbering.label.injective]
  refine toOption_ite_map ?_ rfl
  refine toOption_bind_map (Definitions.ofBlocks_renumber numbering blocks)
    fun definitions => ?_
  refine toOption_bind_map (Scope.blocks_renumber numbering
    ⟨blocks.map Document.Block.label, definitions, params, ret⟩ blocks) fun checked => ?_
  exact ofNodes_renumber numbering checked.1 checked.2

theorem Parameter.ofDocument_anonymous (parameter : Document.Parameter) :
    (ofDocument parameter.anonymous).toOption =
      (ofDocument parameter).toOption.map Parameter.anonymous :=
  toOption_bind_same fun _ => rfl

namespace Function

/-- Checking a renumbered document gives the renumbered program. -/
theorem ofDocument_renumber (numbering : Renumbering) (document : Document.Function) :
    (ofDocument (document.renumber numbering)).toOption =
      (ofDocument document).toOption.map (renumber numbering) := by
  refine toOption_bind_map
    (toOption_mapM_map Parameter.ofDocument_anonymous document.params) fun params => ?_
  have htypes : (params.map Parameter.anonymous).map Parameter.ty = params.map Parameter.ty := by
    rw [List.map_map]
    rfl
  simp only [Document.Function.renumber, List.isEmpty_map, htypes]
  refine toOption_bind_same fun ret => toOption_ite_map rfl ?_
  exact toOption_bind_map
    (Body.ofDocument_renumber numbering (params.map Parameter.ty) ret document.blocks) fun _ => rfl

/-- Whether a function is accepted and what its analysis finds, after how many evaluations or with
which fault, does not depend on indices, labels and names. -/
theorem analysis_ignores_numbering {numbering : Renumbering} {document other : Document.Function}
    (hrenumbers : document.Renumbers numbering other) :
    ((∃ function, ofDocument other = .ok function) ↔
        ∃ function, ofDocument document = .ok function) ∧
      ∀ function renumbered, ofDocument document = .ok function →
        ofDocument other = .ok renumbered → ∀ fuel options,
          renumbered.ranges? fuel options = function.ranges? fuel options := by
  have hchecked : (ofDocument other).toOption.map (renumber .identity) =
      (ofDocument document).toOption.map (renumber numbering) := by
    rw [← ofDocument_renumber, ← ofDocument_renumber]
    exact congrArg (fun outline => (ofDocument outline).toOption) hrenumbers
  constructor
  · rw [← isSome_toOption_iff, ← isSome_toOption_iff]
    have hsome := congrArg Option.isSome hchecked
    rw [Option.isSome_map, Option.isSome_map] at hsome
    rw [hsome]
  · intro function renumbered hfunction hrenumbered fuel options
    rw [hfunction, hrenumbered] at hchecked
    have hsame : renumbered.renumber .identity = function.renumber numbering :=
      Option.some.inj hchecked
    calc renumbered.ranges? fuel options
        = (renumbered.renumber .identity).ranges? fuel options :=
          (ranges?_renumber _ _ fuel options).symm
      _ = (function.renumber numbering).ranges? fuel options := by rw [hsame]
      _ = function.ranges? fuel options := ranges?_renumber _ _ fuel options

/-- The counting loop with its indices and labels in descending order and with other names. -/
def descendingLoop : Document.Function :=
  let ty : Document.TypeExpr := .int 32
  let number (value : String) : Document.Operand := .constant ⟨ty, .int value⟩
  { name := "downhill"
    params := []
    ret := .void
    blocks :=
      [⟨9, some "entry", [], ⟨.void, 9, none, .goto 8⟩⟩,
        ⟨8, none,
          [⟨ty, 8, none, .phi [⟨number "0", 9⟩, ⟨.instruction ty 7, 8⟩]⟩,
            ⟨ty, 7, some "i", .binary "add" (.instruction ty 8) (number "1")⟩],
          ⟨.void, 6, some "back", .goto 8⟩⟩] }

/-- Numbers are counted down from nine. -/
def descending : Renumbering :=
  let down : UInt64 ↪ UInt64 := ⟨(9 - ·), fun _ _ => (UInt64.sub_right_inj 9).mp⟩
  ⟨down, down⟩

/-- The descending loop is accepted and analysed like the counting loop. -/
theorem descendingLoop_ranges :
    Body.countingLoop.Renumbers descending descendingLoop ∧
      ofDocument Body.countingLoop = .ok Body.countingFunction ∧
      ∃ function, ofDocument descendingLoop = .ok function ∧
        ∀ fuel options,
          function.ranges? fuel options = Body.countingFunction.ranges? fuel options :=
  have hrenumbers : Body.countingLoop.Renumbers descending descendingLoop := rfl
  have hindependent := analysis_ignores_numbering hrenumbers
  have ⟨function, hfunction⟩ := hindependent.1.mpr ⟨_, Body.ofDocument_countingLoop⟩
  ⟨hrenumbers, Body.ofDocument_countingLoop, function, hfunction,
    hindependent.2 _ _ Body.ofDocument_countingLoop hfunction⟩

end Function

end ValueRange

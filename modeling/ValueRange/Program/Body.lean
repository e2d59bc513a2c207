import ValueRange.Digraph
import ValueRange.Program.Instruction

/-!
# Functions and modules

A function body is a list of blocks over an arena of instructions. Beside the instructions it keeps
their def-use graph, with an edge from each instruction to those that use its result. The graph
follows from the arena, so comparing two bodies looks at blocks and instructions only.

Instructions refer to each other by their positions in the arena. Looking up a position beyond it is
a fault.
-/

namespace ValueRange

/-- An instruction with its identity in the function. -/
structure Node where
  /-- The index by which the document refers to it. -/
  index : UInt64
  /-- Name of the result. -/
  name : Option String
  /-- Type of the result. -/
  ty : Ty
  /-- The instruction. -/
  instruction : Instruction
deriving DecidableEq, Repr

/-- A basic block. -/
structure Block where
  /-- The label by which instructions refer to it. -/
  label : UInt64
  /-- Name of the block. -/
  name : Option String
  /-- Positions of its instructions. -/
  sequence : List Nat
  /-- Its last instruction. -/
  terminator : Terminator
deriving DecidableEq, Repr

/-- Written form of the label of a block. -/
def Block.labelText (label : UInt64) : String := "bb" ++ toString label.toNat

/-- Body of a function. -/
structure Body where
  /-- The blocks. -/
  blocks : List Block
  /-- The arena of instructions, block after block. -/
  nodes : Array Node
  /-- The def-use graph on the positions of the arena. -/
  uses : Digraph

namespace Body

/-- For each operand that is the result of an instruction, an edge from there to its user. -/
def useEdges (nodes : List Node) : List (Nat × Nat) :=
  nodes.zipIdx.flatMap fun (node, user) =>
    node.instruction.registers.map fun definition => (definition, user)

/-- A body over an arena, with the uses in it. -/
def ofNodes (blocks : List Block) (nodes : List Node) : Except Fault Body := do
  let uses ← Digraph.ofEdges nodes.length (useEdges nodes)
  pure ⟨blocks, nodes.toArray, uses⟩

instance : BEq Body :=
  ⟨fun left right => decide (left.blocks = right.blocks) && decide (left.nodes = right.nodes)⟩

/-- The instruction at a position, if it is one of the arena. -/
def node? (body : Body) (id : Nat) : Option Node := body.nodes[id]?

/-- The instruction at a position of the arena. -/
def node (body : Body) (id : Nat) : Except Fault Node :=
  match body.node? id with
  | some node => .ok node
  | none => .error (.unknownNode id)

theorem node_eq_ok_iff {body : Body} {id : Nat} {node : Node} :
    body.node id = .ok node ↔ body.node? id = some node := by
  unfold Body.node
  cases body.node? id <;> simp

/-- Whether there is an instruction at a position that the range analysis tracks. -/
def tracked (body : Body) (id : Nat) : Bool :=
  match body.node? id with
  | some node => node.instruction.tracked
  | none => false

/-- The positions of the arena. -/
def ids (body : Body) : List Nat := List.range body.nodes.size

/-- The positions that the range analysis tracks. -/
def trackedIds (body : Body) : List Nat := body.ids.filter body.tracked

/-- The instructions that use the result of another one, in ascending order. -/
def users (body : Body) (id : Nat) : List Nat := Ascending.sort (body.uses.successors id)

/-- The users that the range analysis tracks, once each user has been looked up. -/
def findTrackedUsers (body : Body) (id : Nat) : Except Fault (List Nat) :=
  (body.users id).filterM fun user => do
    let node ← body.node user
    pure node.instruction.tracked

/-- The block with a label. -/
def block? (body : Body) (label : UInt64) : Option Block :=
  body.blocks.find? fun block => block.label = label

/-- Number of instructions, terminators included. -/
def count (body : Body) : Nat := body.nodes.size + body.blocks.length

end Body

/-- A parameter of a function. -/
structure Parameter where
  /-- Name of the parameter. -/
  name : Option String
  /-- Its type. -/
  ty : Ty
deriving DecidableEq, Repr

/-- A function; a declaration has no body. -/
structure Function where
  /-- Name of the function. -/
  name : String
  /-- Its parameters. -/
  params : List Parameter
  /-- Type of its result. -/
  ret : Ty
  /-- Its body. -/
  body : Option Body
deriving BEq

/-- A program module. -/
structure Module where
  /-- Name of the module. -/
  name : String
  /-- Its functions. -/
  functions : List Function
deriving BEq

/-- The functions with a body. -/
def Module.defined (module : Module) : List Function :=
  module.functions.filter fun function => function.body.isSome

end ValueRange

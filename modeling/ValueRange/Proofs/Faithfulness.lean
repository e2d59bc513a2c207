import ValueRange.Proofs.Declarations
import ValueRange.Proofs.DefUse

/-!
# Checked functions and their documents

Positions are handed out while the indices of a function are collected, before any operand is
checked, and the arena is filled in a second pass, which looks the position and the type of each
instruction up in the table of the first one. The two passes agree: the arena holds one node for
every instruction in the order of the document, the position that was handed out for it is the one
at which it is stored, the blocks divide these positions among them, and an operand that refers to
an instruction by its index becomes the position of the node with that index.
-/

namespace ValueRange

open Document (Operand)

/-! ## Operands and labels -/

namespace Document.Operation

/-- The operands in the order of the written form, a callee last. -/
def operands : Operation → List Operand
  | phi incoming => incoming.map Incoming.value
  | select cond thenValue elseValue => [cond, thenValue, elseValue]
  | binary _ lhs rhs => [lhs, rhs]
  | compare _ lhs rhs => [lhs, rhs]
  | cast _ operand => [operand]
  | alloca _ size => size.toList
  | load _ pointer => [pointer]
  | store _ pointer value => [value, pointer]
  | call callee args => args ++ [callee]
  | other _ operands => operands
  | goto _ => []
  | branch cond _ _ => [cond]
  | ret value => value.toList
  | unreachable => []

/-- The blocks that an operation names. -/
def labels : Operation → List UInt64
  | phi incoming => incoming.map Incoming.block
  | goto target => [target]
  | branch _ thenCase elseCase => [thenCase, elseCase]
  | _ => []

end Document.Operation

/-- The blocks that an instruction names. -/
def Instruction.labels : Instruction → List UInt64
  | phi incoming => incoming.map Prod.snd
  | _ => []

namespace Terminator

/-- The operands of a terminator. -/
def operands : Terminator → List Value
  | goto _ => []
  | branch cond _ _ => [cond]
  | ret value => value.toList
  | unreachable => []

/-- The blocks that a terminator names. -/
def labels : Terminator → List UInt64
  | goto target => [target]
  | branch _ thenCase elseCase => [thenCase, elseCase]
  | ret _ => []
  | unreachable => []

end Terminator

/-! ## Representation -/

section Representation

variable (refers : Operand → Value → Prop) (known : UInt64 → Prop)

/-- Checked operands and labels stand for those of an operation, one for one. -/
structure Document.Operation.MirroredBy (operation : Document.Operation) (values : List Value)
    (targets : List UInt64) : Prop where
  /-- Every value is what the operand refers to. -/
  operands : List.Forall₂ refers operation.operands values
  /-- Labels are kept. -/
  labels : targets = operation.labels
  /-- Every label is known. -/
  targets_known : ∀ label ∈ targets, known label

/-- A node stands for an instruction of the document. -/
structure Node.Represents (node : Node) (instruction : Document.Instruction) : Prop where
  /-- It has the index of the instruction. -/
  index : node.index = instruction.index
  /-- It has the name of the instruction. -/
  name : node.name = instruction.name
  /-- It has the type of the instruction. -/
  ty : Ty.ofExpr instruction.ty = .ok node.ty
  /-- Its operands and labels are those of the instruction. -/
  mirrors : instruction.repr.MirroredBy refers known node.instruction.operands
    node.instruction.labels

/-- A block stands for a block of the document. -/
structure Block.Represents (block : Block) (document : Document.Block) : Prop where
  /-- It has the same label. -/
  label : block.label = document.label
  /-- It has the same name. -/
  name : block.name = document.name
  /-- It has as many instructions before its end. -/
  length : block.sequence.length = document.body.length
  /-- Operands and labels of its terminator are those of the document. -/
  mirrors : document.terminator.repr.MirroredBy refers known block.terminator.operands
    block.terminator.labels

end Representation

section Monotone

variable {refers refers' : Operand → Value → Prop} {known known' : UInt64 → Prop}
  (hrefers : ∀ operand value, refers operand value → refers' operand value)
  (hknown : ∀ label, known label → known' label)

include hrefers hknown

theorem Document.Operation.MirroredBy.imp {operation : Document.Operation} {values : List Value}
    {targets : List UInt64} (hmirrors : operation.MirroredBy refers known values targets) :
    operation.MirroredBy refers' known' values targets :=
  ⟨hmirrors.operands.imp hrefers, hmirrors.labels, fun label hlabel =>
    hknown label (hmirrors.targets_known label hlabel)⟩

theorem Node.Represents.imp {node : Node} {instruction : Document.Instruction}
    (hnode : node.Represents refers known instruction) :
    node.Represents refers' known' instruction :=
  ⟨hnode.index, hnode.name, hnode.ty, hnode.mirrors.imp hrefers hknown⟩

theorem Block.Represents.imp {block : Block} {document : Document.Block}
    (hblock : block.Represents refers known document) : block.Represents refers' known' document :=
  ⟨hblock.label, hblock.name, hblock.length, hblock.mirrors.imp hrefers hknown⟩

end Monotone

/-- What an operand of a document stands for in a checked function. -/
inductive Function.Refers (function : Function) (body : Body) : Operand → Value → Prop
  | constant {constant : Document.Constant} {ty : Ty} {value : Constant}
      (hty : Ty.ofExpr constant.ty = .ok ty)
      (hvalue : Constant.ofLiteral constant.repr ty = .ok value) :
      Refers function body (.constant constant) (.constant value ty)
  /-- A parameter, with its type. -/
  | argument {expr : Document.TypeExpr} {index : UInt64} {parameter : Parameter}
      (hparameter : function.params[index.toNat]? = some parameter)
      (hty : Ty.ofExpr expr = .ok parameter.ty) :
      Refers function body (.argument expr index) (.argument index.toNat parameter.ty)
  /-- The node that has the index, with its type. -/
  | register {expr : Document.TypeExpr} {id : Nat} {node : Node}
      (hnode : body.node? id = some node) (hty : Ty.ofExpr expr = .ok node.ty) :
      Refers function body (.instruction expr node.index) (.register id node.ty)

/-- The body of a checked function is closed and stands for the blocks of the document. -/
structure Function.Represents (function : Function) (body : Body) (document : Document.Function) :
    Prop where
  /-- The arena has one node for each instruction, in order. -/
  nodes : List.Forall₂ (fun instruction node => node.Represents (function.Refers body)
    (fun label => (body.blocks.map Block.label).count label = 1) instruction)
    document.instructions body.nodes.toList
  /-- There is one block for each block, in order. -/
  blocks : List.Forall₂ (fun block checked => checked.Represents (function.Refers body)
    (fun label => (body.blocks.map Block.label).count label = 1) block)
    document.blocks body.blocks
  /-- Block after block, the sequences go through the arena. -/
  sequences : body.blocks.flatMap Block.sequence = List.range body.nodes.size

/-! ## What the checks build -/

theorem exists_getElem?_of_forall₂ {α β : Type} {relation : α → β → Prop} {left : List α}
    {right : List β} (hall : List.Forall₂ relation left right) {position : Nat} {item : α}
    (hitem : left[position]? = some item) :
    ∃ other, right[position]? = some other ∧ relation item other := by
  induction hall generalizing position with
  | nil => cases hitem
  | cons hfirst _ ih =>
      cases position with
      | zero =>
          cases hitem
          exact ⟨_, rfl, hfirst⟩
      | succ position => exact ih hitem

theorem exists_of_mem_of_forall₂ {α β : Type} {relation : α → β → Prop} {left : List α}
    {right : List β} (hall : List.Forall₂ relation left right) {other : β}
    (hother : other ∈ right) :
    ∃ item ∈ left, relation item other := by
  induction hall with
  | nil => cases hother
  | cons hfirst _ ih =>
      rcases List.mem_cons.mp hother with rfl | hother
      · exact ⟨_, List.mem_cons_self, hfirst⟩
      · obtain ⟨item, hitem, hrelation⟩ := ih hother
        exact ⟨item, List.mem_cons_of_mem _ hitem, hrelation⟩

/-- The checks of blocks go through their instructions one by one. -/
theorem Scope.exists_entries_of_blocks {scope : Scope} {blocks : List Document.Block}
    {checked : List Block} {nodes : List Node}
    (hblocks : scope.blocks blocks = .ok (checked, nodes)) :
    ∃ entries : List (Nat × Node),
      List.Forall₂ (fun instruction entry => scope.node instruction = .ok entry)
        (blocks.flatMap Document.Block.body) entries ∧
      checked.flatMap Block.sequence = entries.map Prod.fst ∧ nodes = entries.map Prod.snd ∧
      List.Forall₂ (fun document block => block.label = document.label ∧
        block.name = document.name ∧ block.sequence.length = document.body.length ∧
        scope.terminator document.terminator = .ok block.terminator) blocks checked := by
  simp only [Scope.blocks, Outcome.bind_eq_ok_iff, Outcome.pure_eq_ok_iff, Outcome.mapM_eq_ok_iff,
    Prod.mk.injEq] at hblocks
  obtain ⟨results, hresults, rfl, rfl⟩ := hblocks
  induction hresults with
  | nil => exact ⟨[], .nil, rfl, rfl, .nil⟩
  | @cons document result _ _ hresult _ ih =>
      simp only [Scope.block, Outcome.bind_eq_ok_iff, Outcome.pure_eq_ok_iff,
        Outcome.mapM_eq_ok_iff] at hresult
      obtain ⟨own, hown, terminator, hterminator, rfl⟩ := hresult
      obtain ⟨more, hmore, hsequence, hnodes, hblocks⟩ := ih
      refine ⟨own ++ more, List.rel_append hown hmore, ?_, ?_, .cons ⟨rfl, rfl, ?_, hterminator⟩
        hblocks⟩
      · rw [List.map_cons, List.flatMap_cons, hsequence, List.map_append]
      · rw [List.flatMap_cons, hnodes, List.map_append]
      · rw [List.length_map, hown.length_eq]

namespace Document.Function.Declared

variable {document : Document.Function} (hdeclared : document.Declared)

include hdeclared

theorem mirroredBy_of_incoming {ty : Ty} {incoming : List Document.Incoming}
    {edges : List (Value × UInt64)}
    (hedges : List.Forall₂ (fun edge result => document.scope.incoming ty edge = .ok result)
      incoming edges) :
    (Document.Operation.phi incoming).MirroredBy document.Means (· ∈ document.labels)
      (edges.map Prod.fst) (edges.map Prod.snd) := by
  induction hedges with
  | nil => exact ⟨.nil, rfl, List.forall_mem_nil _⟩
  | cons hedge _ ih =>
      simp only [Scope.incoming, Outcome.bind_eq_ok_iff, Outcome.pure_eq_ok_iff,
        hdeclared.valueOf_eq_ok_iff, label_eq_ok_iff] at hedge
      obtain ⟨value, ⟨hvalue, _⟩, label, ⟨hlabel, rfl⟩, rfl⟩ := hedge
      refine ⟨.cons hvalue ih.operands, ?_, ?_⟩
      · exact congrArg (List.cons _) ih.labels
      · exact List.forall_mem_cons.mpr ⟨hlabel, ih.targets_known⟩

theorem forall₂_means {operands : List Operand} {values : List Value}
    (hvalues : List.Forall₂ (fun operand value => document.scope.value operand = .ok value)
      operands values) : List.Forall₂ document.Means operands values :=
  hvalues.imp fun _ _ => hdeclared.value_eq_ok_iff.mp

/-- A checked operation has the operands and labels of the document. -/
theorem mirroredBy_of_operation {ty : Ty} {operation : Document.Operation}
    {instruction : ValueRange.Instruction}
    (hinstruction : document.scope.operation ty operation = .ok instruction) :
    operation.MirroredBy document.Means (· ∈ document.labels) instruction.operands
      instruction.labels := by
  cases operation with
  | phi incoming =>
      simp only [Scope.operation, Outcome.guard_eq_ok_iff, Outcome.bind_eq_ok_iff,
        Outcome.pure_eq_ok_iff, Outcome.mapM_eq_ok_iff] at hinstruction
      obtain ⟨_, edges, hedges, rfl⟩ := hinstruction
      exact hdeclared.mirroredBy_of_incoming hedges
  | select cond thenValue elseValue =>
      simp only [Scope.operation, Outcome.bind_eq_ok_iff, Outcome.pure_eq_ok_iff,
        hdeclared.valueOf_eq_ok_iff] at hinstruction
      obtain ⟨_, ⟨hcond, _⟩, _, ⟨hthen, _⟩, _, ⟨helse, _⟩, rfl⟩ := hinstruction
      exact ⟨.cons hcond (.cons hthen (.cons helse .nil)), rfl, List.forall_mem_nil _⟩
  | binary mnemonic lhs rhs =>
      simp only [Scope.operation, Outcome.bind_eq_ok_iff, Outcome.pure_eq_ok_iff,
        hdeclared.valueOf_eq_ok_iff] at hinstruction
      obtain ⟨_, _, _, ⟨hleft, _⟩, _, ⟨hright, _⟩, rfl⟩ := hinstruction
      exact ⟨.cons hleft (.cons hright .nil), rfl, List.forall_mem_nil _⟩
  | compare mnemonic lhs rhs =>
      simp only [Scope.operation, Outcome.guard_eq_ok_iff, Outcome.bind_eq_ok_iff,
        Outcome.pure_eq_ok_iff, hdeclared.value_eq_ok_iff, hdeclared.valueOf_eq_ok_iff]
        at hinstruction
      obtain ⟨_, _, hleft, _, ⟨hright, _⟩, _, _, rfl⟩ := hinstruction
      exact ⟨.cons hleft (.cons hright .nil), rfl, List.forall_mem_nil _⟩
  | cast mnemonic operand =>
      simp only [Scope.operation, Outcome.bind_eq_ok_iff, Outcome.pure_eq_ok_iff,
        hdeclared.value_eq_ok_iff] at hinstruction
      obtain ⟨_, _, _, hoperand, rfl⟩ := hinstruction
      exact ⟨.cons hoperand .nil, rfl, List.forall_mem_nil _⟩
  | alloca allocatedType size =>
      simp only [Scope.operation, Outcome.guard_eq_ok_iff, Outcome.bind_eq_ok_iff,
        Outcome.pure_eq_ok_iff, Outcome.option_mapM_eq_ok_iff] at hinstruction
      obtain ⟨_, _, hsize, _, _, rfl⟩ := hinstruction
      exact ⟨hdeclared.forall₂_means hsize, rfl, List.forall_mem_nil _⟩
  | load pointeeType pointer =>
      simp only [Scope.operation, Outcome.guard_eq_ok_iff, Outcome.bind_eq_ok_iff,
        Outcome.pure_eq_ok_iff, hdeclared.valueOf_eq_ok_iff] at hinstruction
      obtain ⟨_, _, _, _, ⟨hpointer, _⟩, rfl⟩ := hinstruction
      exact ⟨.cons hpointer .nil, rfl, List.forall_mem_nil _⟩
  | store pointeeType pointer value =>
      simp only [Scope.operation, Outcome.guard_eq_ok_iff, Outcome.bind_eq_ok_iff,
        Outcome.pure_eq_ok_iff, hdeclared.valueOf_eq_ok_iff] at hinstruction
      obtain ⟨_, _, _, _, ⟨hpointer, _⟩, _, ⟨hvalue, _⟩, rfl⟩ := hinstruction
      exact ⟨.cons hvalue (.cons hpointer .nil), rfl, List.forall_mem_nil _⟩
  | call callee args =>
      simp only [Scope.operation, Outcome.bind_eq_ok_iff, Outcome.pure_eq_ok_iff,
        Outcome.mapM_eq_ok_iff, hdeclared.valueOf_eq_ok_iff] at hinstruction
      obtain ⟨_, ⟨hcallee, _⟩, _, hargs, rfl⟩ := hinstruction
      refine ⟨?_, rfl, List.forall_mem_nil _⟩
      exact List.rel_append (hdeclared.forall₂_means hargs) (.cons hcallee .nil)
  | other opcode operands =>
      simp only [Scope.operation, Outcome.bind_eq_ok_iff, Outcome.pure_eq_ok_iff,
        Outcome.mapM_eq_ok_iff] at hinstruction
      obtain ⟨_, hoperands, rfl⟩ := hinstruction
      exact ⟨hdeclared.forall₂_means hoperands, rfl, List.forall_mem_nil _⟩
  | _ => exact absurd hinstruction Outcome.throw_ne_ok

theorem mirroredBy_of_terminator {instruction : Document.Instruction} {terminator : Terminator}
    (hterminator : document.scope.terminator instruction = .ok terminator) :
    instruction.repr.MirroredBy document.Means (· ∈ document.labels) terminator.operands
      terminator.labels := by
  rw [Scope.terminator, Outcome.guard_eq_ok_iff] at hterminator
  obtain ⟨_, hterminator⟩ := hterminator
  cases hrepr : instruction.repr with
  | goto target =>
      simp only [hrepr, Outcome.bind_eq_ok_iff, Outcome.pure_eq_ok_iff, label_eq_ok_iff]
        at hterminator
      obtain ⟨_, ⟨htarget, rfl⟩, rfl⟩ := hterminator
      exact ⟨.nil, rfl, List.forall_mem_singleton.mpr htarget⟩
  | branch cond thenCase elseCase =>
      simp only [hrepr, Outcome.bind_eq_ok_iff, Outcome.pure_eq_ok_iff, label_eq_ok_iff,
        hdeclared.valueOf_eq_ok_iff] at hterminator
      obtain ⟨_, ⟨hcond, _⟩, _, ⟨hthen, rfl⟩, _, ⟨helse, rfl⟩, rfl⟩ := hterminator
      exact ⟨.cons hcond .nil, rfl,
        List.forall_mem_cons.mpr ⟨hthen, List.forall_mem_singleton.mpr helse⟩⟩
  | ret value =>
      cases value with
      | none =>
          simp only [hrepr] at hterminator
          split at hterminator
          · cases Outcome.pure_eq_ok_iff.mp hterminator
            exact ⟨.nil, rfl, List.forall_mem_nil _⟩
          · exact absurd hterminator Outcome.throw_ne_ok
      | some value =>
          simp only [hrepr, Outcome.guard_eq_ok_iff, Outcome.bind_eq_ok_iff, Outcome.pure_eq_ok_iff,
            hdeclared.valueOf_eq_ok_iff] at hterminator
          obtain ⟨_, _, ⟨hvalue, _⟩, rfl⟩ := hterminator
          exact ⟨.cons hvalue .nil, rfl, List.forall_mem_nil _⟩
  | unreachable =>
      simp only [hrepr, Outcome.pure_eq_ok_iff] at hterminator
      cases hterminator
      exact ⟨.nil, rfl, List.forall_mem_nil _⟩
  | _ =>
      simp only [hrepr] at hterminator
      exact absurd hterminator Outcome.throw_ne_ok

/-- An instruction gets the position at which it is written, and its own type. -/
theorem represents_of_node {id : Nat} {instruction : Document.Instruction}
    (hinstruction : document.instructions[id]? = some instruction) {entry : Nat × Node}
    (hentry : document.scope.node instruction = .ok entry) :
    entry.1 = id ∧ entry.2.Represents document.Means (· ∈ document.labels) instruction := by
  simp only [Scope.node, hdeclared.find?_eq_some hinstruction, Outcome.bind_eq_ok_iff,
    Outcome.pure_eq_ok_iff] at hentry
  obtain ⟨_, _, operation, hoperation, rfl⟩ := hentry
  have hvalid := hdeclared.types_valid instruction (List.mem_of_getElem? hinstruction)
  exact ⟨rfl, rfl, rfl, Ty.ofExpr_eq_ok_iff.mpr ⟨hvalid, rfl⟩,
    hdeclared.mirroredBy_of_operation hoperation⟩

/-- The positions that were handed out before are those at which the arena is filled. -/
theorem represents_of_blocks {checked : List ValueRange.Block} {nodes : List Node}
    (hblocks : document.scope.blocks document.blocks = .ok (checked, nodes)) :
    List.Forall₂ (fun instruction node =>
        node.Represents document.Means (· ∈ document.labels) instruction)
      document.instructions nodes ∧
    List.Forall₂ (fun block result =>
        result.Represents document.Means (· ∈ document.labels) block) document.blocks checked ∧
    checked.flatMap ValueRange.Block.sequence = List.range nodes.length := by
  obtain ⟨entries, hentries, hsequence, rfl, hchecked⟩ := Scope.exists_entries_of_blocks hblocks
  refine ⟨?_, ?_, ?_⟩
  · have hmembers := (List.forall₂_and_left _ _).mpr ⟨fun _ hmem => hmem, hentries⟩
    refine List.forall₂_map_right_iff.mpr (hmembers.imp fun instruction entry => ?_)
    rintro ⟨hmem, hentry⟩
    obtain ⟨id, hid⟩ := List.mem_iff_getElem?.mp hmem
    exact (hdeclared.represents_of_node hid hentry).2
  · refine hchecked.imp fun _ _ => ?_
    rintro ⟨hlabel, hname, hlength, hterminator⟩
    exact ⟨hlabel, hname, hlength, hdeclared.mirroredBy_of_terminator hterminator⟩
  · rw [hsequence]
    apply List.ext_getElem?
    intro id
    cases hinstruction : document.instructions[id]? with
    | none =>
        have hlength : entries.length ≤ id := by
          rw [← hentries.length_eq]
          exact List.getElem?_eq_none_iff.mp hinstruction
        simp [hlength]
    | some instruction =>
        obtain ⟨entry, hentry, hnode⟩ := exists_getElem?_of_forall₂ hentries hinstruction
        have hlength := (List.getElem?_eq_some_iff.mp hentry).1
        rw [List.getElem?_map, hentry, Option.map_some,
          (hdeclared.represents_of_node hinstruction hnode).1, List.length_map,
          List.getElem?_range hlength]

/-- The uses of checked instructions can be collected. -/
theorem exists_ofNodes_of_blocks {checked : List ValueRange.Block} {nodes : List Node}
    (hblocks : document.scope.blocks document.blocks = .ok (checked, nodes)) :
    ∃ body, Body.ofNodes checked nodes = .ok body := by
  obtain ⟨hnodes, _, _⟩ := hdeclared.represents_of_blocks hblocks
  refine Body.exists_ofNodes_iff.mpr fun node hnode id hid => ?_
  obtain ⟨instruction, _, hrepresents⟩ := exists_of_mem_of_forall₂ hnodes hnode
  obtain ⟨ty, hvalue⟩ := Instruction.mem_registers_iff.mp hid
  obtain ⟨operand, _, hmeans⟩ := exists_of_mem_of_forall₂ hrepresents.mirrors.operands hvalue
  cases hmeans with
  | register hinstruction =>
      rw [← hnodes.length_eq]
      exact (List.getElem?_eq_some_iff.mp hinstruction).1

end Document.Function.Declared

/-! ## Closed bodies -/

namespace Function

/-- What an operand means in the document is what it refers to in the arena. -/
theorem refers_of_means {document : Document.Function} (hdeclared : document.Declared)
    {function : Function} {body : Body} {known : UInt64 → Prop}
    (hparams : function.params =
      document.params.map fun parameter => ⟨parameter.name, parameter.ty.denoted⟩)
    (hnodes : List.Forall₂
      (fun instruction node => node.Represents document.Means known instruction)
      document.instructions body.nodes.toList) {operand : Operand} {value : Value}
    (hmeans : document.Means operand value) : function.Refers body operand value := by
  cases hmeans with
  | constant hty hvalue => exact .constant (Ty.ofExpr_eq_ok_iff.mpr ⟨hty, rfl⟩) hvalue
  | @argument index parameter hparameter =>
      have hvalid := hdeclared.params_valid _ (List.mem_of_getElem? hparameter)
      have hchecked : function.params[index.toNat]? =
          some ⟨parameter.name, parameter.ty.denoted⟩ := by
        rw [hparams, List.getElem?_map, hparameter, Option.map_some]
      exact .argument hchecked (Ty.ofExpr_eq_ok_iff.mpr ⟨hvalid, rfl⟩)
  | @register id instruction hinstruction =>
      obtain ⟨node, hnode, hrepresents⟩ := exists_getElem?_of_forall₂ hnodes hinstruction
      have hty := (Ty.ofExpr_eq_ok_iff.mp hrepresents.ty).2
      rw [← hrepresents.index, ← hty]
      refine .register ?_ hrepresents.ty
      rwa [Array.getElem?_toList] at hnode

theorem represents_of_ofDocument {document : Document.Function} {function : Function}
    (hfunction : Function.ofDocument document = .ok function) (hblocks : document.blocks ≠ []) :
    ∃ body, function.body = some body ∧ function.Represents body document := by
  obtain ⟨hdeclared, blocks, nodes, body, hchecked, hbody, hresult⟩ :=
    ofDocument_eq_ok_iff.mp hfunction
  obtain ⟨hnodes, hrepresents, hsequences⟩ := hdeclared.represents_of_blocks hchecked
  obtain ⟨rfl, harena, _⟩ := Body.ofNodes_eq_ok_iff.mp hbody
  have hlist : nodes = body.nodes.toList := by rw [harena]
  subst hlist
  have hlabels : body.blocks.map Block.label = document.labels := by
    rw [Document.Function.labels, eq_comm, ← List.forall₂_eq_eq_eq, List.forall₂_map_left_iff,
      List.forall₂_map_right_iff]
    exact hrepresents.imp fun _ _ hblock => hblock.label.symm
  -- A label of the document belongs to one block, as labels are unique.
  have hknown : ∀ label, label ∈ document.labels → (body.blocks.map Block.label).count label = 1 := by
    intro label hlabel
    rw [hlabels]
    exact List.count_eq_one_of_mem hdeclared.labels_nodup hlabel
  have hparams : function.params =
      document.params.map fun parameter => ⟨parameter.name, parameter.ty.denoted⟩ := by
    rw [hresult]
  have hrefers := fun operand value => @refers_of_means document hdeclared function body _ hparams
    hnodes operand value
  refine ⟨body, ?_, ?_, ?_, ?_⟩
  · simp [hresult, hblocks]
  · exact hnodes.imp fun _ _ hnode => hnode.imp hrefers hknown
  · exact hrepresents.imp fun _ _ hblock => hblock.imp hrefers hknown
  · rw [hsequences, Array.length_toList]

theorem represents_of_body {document : Document.Function} {function : Function} {body : Body}
    (hfunction : Function.ofDocument document = .ok function) (hbody : function.body = some body) :
    function.Represents body document := by
  have hblocks : document.blocks ≠ [] := by
    intro hnil
    obtain ⟨_, _, _, _, _, _, hresult⟩ := ofDocument_eq_ok_iff.mp hfunction
    simp [hresult, hnil] at hbody
  obtain ⟨other, hother, hrepresents⟩ := represents_of_ofDocument hfunction hblocks
  cases hother.symm.trans hbody
  exact hrepresents

/-- There is an instruction at every position that a block lists. -/
theorem Represents.exists_node {document : Document.Function} {function : Function} {body : Body}
    (hrepresents : function.Represents body document) {block : Block} (hblock : block ∈ body.blocks)
    {id : Nat} (hid : id ∈ block.sequence) : ∃ node, body.node? id = some node := by
  have hmem : id ∈ body.blocks.flatMap Block.sequence := List.mem_flatMap.mpr ⟨block, hblock, hid⟩
  rw [hrepresents.sequences, List.mem_range] at hmem
  exact ⟨body.nodes[id], Array.getElem?_eq_getElem hmem⟩

end Function

end ValueRange

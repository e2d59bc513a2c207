import ValueRange.Analysis.Event
import ValueRange.Program.Printer
import ValueRange.Proofs.Faithfulness

/-!
# What can be written

The written form of an operand is looked up in the arena if the operand is a result. Nothing else is
looked up, so an instruction or a terminator can be written if and only if the arena has each result
among its operands.
-/

namespace ValueRange

/-- An operand is no result, or it is one of the arena. -/
def Body.Holds (body : Body) (value : Value) : Prop :=
  ∀ id, value.register? = some id → ∃ node, body.node? id = some node

namespace Printer

variable {printer : Printer} {id : Nat}

theorem exists_register_iff :
    (∃ text, printer.register id = .ok text) ↔ ∃ node, printer.body.node? id = some node := by
  simp only [register, Outcome.exists_bind_pure_iff, Body.node_eq_ok_iff]

theorem exists_value_iff {value : Value} :
    (∃ text, printer.value value = .ok text) ↔ printer.body.Holds value := by
  cases value with
  | constant constant ty => exact iff_of_true ⟨_, rfl⟩ fun id hid => nomatch hid
  | argument index ty => exact iff_of_true ⟨_, rfl⟩ fun id hid => nomatch hid
  | register id ty =>
      simp only [Printer.value, exists_register_iff, Body.Holds, Value.register?,
        Option.some.injEq, forall_eq']

theorem exists_typed_iff {value : Value} :
    (∃ text, printer.typed value = .ok text) ↔ printer.body.Holds value := by
  simp only [typed, Outcome.exists_bind_pure_iff, exists_value_iff]

theorem exists_typedList_iff {values : List Value} :
    (∃ text, printer.typedList values = .ok text) ↔ ∀ value ∈ values, printer.body.Holds value := by
  simp only [typedList, Outcome.exists_bind_pure_iff, Outcome.exists_mapM_eq_ok_iff,
    exists_typed_iff]

theorem exists_incoming_iff {edge : Value × UInt64} :
    (∃ text, printer.incoming edge = .ok text) ↔ printer.body.Holds edge.1 := by
  simp only [incoming, Outcome.exists_bind_pure_iff, exists_value_iff]

/-- Two operands are written one after the other. -/
theorem exists_pair_iff {write : Value → Except Fault String} {form : String → String → String}
    (hwrite : ∀ value, (∃ text, write value = .ok text) ↔ printer.body.Holds value)
    {left right : Value} :
    (∃ text, (do
        let left ← write left
        let right ← write right
        pure (form left right)) = .ok text) ↔
      ∀ value ∈ [left, right], printer.body.Holds value := by
  simp only [Outcome.exists_bind_eq_ok_iff, Outcome.pure_eq_ok_iff, exists_eq', and_true,
    exists_and_right, hwrite, List.forall_mem_cons, List.not_mem_nil, false_implies, implies_true]

theorem exists_operation_iff {ty : Ty} {instruction : Instruction} :
    (∃ text, printer.operation ty instruction = .ok text) ↔
      ∀ value ∈ instruction.operands, printer.body.Holds value := by
  cases instruction with
  | phi incoming =>
      simp only [operation, Outcome.exists_bind_pure_iff, Outcome.exists_mapM_eq_ok_iff,
        exists_incoming_iff, Instruction.operands, List.forall_mem_map]
  | select cond thenValue elseValue =>
      simp only [operation, Outcome.exists_bind_pure_iff, exists_typedList_iff,
        Instruction.operands]
  | binary opcode lhs rhs => exact exists_pair_iff fun _ => exists_value_iff
  | compare predicate lhs rhs => exact exists_pair_iff fun _ => exists_value_iff
  | cast opcode operand =>
      simp only [operation, Outcome.exists_bind_pure_iff, exists_typed_iff, Instruction.operands,
        List.forall_mem_singleton]
  | alloca allocatedType size =>
      cases size with
      | none => exact iff_of_true ⟨_, rfl⟩ (List.forall_mem_nil _)
      | some size =>
          simp only [operation, Outcome.exists_bind_pure_iff, exists_typed_iff,
            Instruction.operands, Option.toList_some, List.forall_mem_singleton]
  | load pointeeType pointer =>
      simp only [operation, Outcome.exists_bind_pure_iff, exists_typed_iff, Instruction.operands,
        List.forall_mem_singleton]
  | store pointeeType pointer value => exact exists_pair_iff fun _ => exists_typed_iff
  | call callee args =>
      simp only [operation, Outcome.exists_bind_eq_ok_iff, Outcome.pure_eq_ok_iff, exists_eq',
        and_true, exists_and_right, exists_value_iff, exists_typedList_iff, Instruction.operands,
        List.forall_mem_append, List.forall_mem_singleton]
      exact and_comm
  | other opcode operands =>
      cases operands with
      | nil => exact iff_of_true ⟨_, rfl⟩ (List.forall_mem_nil _)
      | cons first rest =>
          simp only [operation, Outcome.exists_bind_pure_iff, exists_typedList_iff,
            Instruction.operands]

/-- An instruction can be written if it is in the arena and its operands can. -/
theorem exists_instruction_iff :
    (∃ text, printer.instruction id = .ok text) ↔
      ∃ node, printer.body.node? id = some node ∧
        ∀ value ∈ node.instruction.operands, printer.body.Holds value := by
  simp only [instruction, Outcome.exists_bind_eq_ok_iff, Body.node_eq_ok_iff]
  refine exists_congr fun node => and_congr_right fun hnode => ?_
  -- The register that is assigned is the instruction itself, which has been found already.
  obtain ⟨register, hregister⟩ := exists_register_iff.mpr ⟨node, hnode⟩
  rw [← @exists_operation_iff printer node.ty node.instruction]
  refine exists_congr fun operation => and_iff_left ?_
  rw [hregister]
  split
  · exact ⟨_, rfl⟩
  · exact ⟨_, rfl⟩

theorem exists_terminator_iff {terminator : Terminator} :
    (∃ text, printer.terminator terminator = .ok text) ↔
      ∀ value ∈ terminator.operands, printer.body.Holds value := by
  cases terminator with
  | goto target => exact iff_of_true ⟨_, rfl⟩ (List.forall_mem_nil _)
  | branch cond thenCase elseCase =>
      simp only [Printer.terminator, Outcome.exists_bind_pure_iff, exists_typed_iff,
        Terminator.operands, List.forall_mem_singleton]
  | ret value =>
      cases value with
      | none => exact iff_of_true ⟨_, rfl⟩ (List.forall_mem_nil _)
      | some value =>
          simp only [Printer.terminator, Outcome.exists_bind_pure_iff, exists_typed_iff,
            Terminator.operands, Option.toList_some, List.forall_mem_singleton]
  | unreachable => exact iff_of_true ⟨_, rfl⟩ (List.forall_mem_nil _)

end Printer

/-! ## Events -/

namespace Event

/-- The positions that an event is about. -/
def ids : Event → List Nat
  | started entries queue => entries.map Prod.fst ++ queue
  | merging id => [id]
  | joined _ _ _ _ => []
  | widened id _ => [id]
  | evaluated id _ _ => [id]
  | queued id => [id]

/-- The lines of an event can be written if its instructions can. -/
theorem exists_lines_iff {name : String} {printer : Printer} {event : Event} :
    (∃ lines, event.lines name printer = .ok lines) ↔
      ∀ id ∈ event.ids, ∃ text, printer.instruction id = .ok text := by
  have hsingle : ∀ id (form : String → List String),
      (∃ lines, (printer.instruction id >>= fun text => pure (form text)) = .ok lines) ↔
        ∀ other ∈ [id], ∃ text, printer.instruction other = .ok text := by
    intro id form
    rw [Outcome.exists_bind_pure_iff, List.forall_mem_singleton]
  cases event with
  | started entries queue =>
      simp only [lines, ids, Outcome.exists_bind_eq_ok_iff, Outcome.pure_eq_ok_iff, exists_eq',
        and_true, exists_and_right, Outcome.exists_mapM_eq_ok_iff, List.forall_mem_append,
        List.forall_mem_map]
  | merging id => exact hsingle id _
  | joined position accumulated operand result => exact iff_of_true ⟨_, rfl⟩ (List.forall_mem_nil _)
  | widened id value => exact hsingle id _
  | evaluated id old new => exact hsingle id _
  | queued id => exact hsingle id _

end Event

end ValueRange

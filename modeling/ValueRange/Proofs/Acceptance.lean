import ValueRange.Proofs.Faithfulness

/-!
# Which documents are accepted

A document is accepted if and only if it is well-formed. The scope of a function with sound
declarations is known, so each check that is made in it is compared with the requirement of its own:
operands first, then operations and terminators, then blocks.
-/

namespace ValueRange

open Document (TypeExpr Operand)

/-- A mnemonic is known if some operator of the family has it. -/
theorem Scope.exists_opcode_iff {α : Type} {family : OpcodeFamily} {all : List α}
    {mnemonic : α → String} (hall : ∀ op, op ∈ all) {text : String} :
    (∃ op, Scope.opcode family (fun text => all.find? fun op => mnemonic op = text) text = .ok op) ↔
      ∃ op, mnemonic op = text := by
  cases hfind : all.find? fun op => mnemonic op = text with
  | none =>
      simp only [Scope.opcode, hfind, reduceCtorEq, exists_false, false_iff, not_exists]
      intro op
      simpa using List.find?_eq_none.mp hfind op (hall op)
  | some op =>
      simp only [Scope.opcode, hfind, Except.ok.injEq, exists_eq', true_iff]
      exact ⟨op, by simpa using List.find?_some hfind⟩

theorem BinaryOp.mem_all (op : BinaryOp) : op ∈ all := by cases op <;> decide

theorem Predicate.mem_all (predicate : Predicate) : predicate ∈ all := by
  cases predicate <;> decide

theorem CastOp.mem_all (op : CastOp) : op ∈ all := by cases op <;> decide

namespace Document.Function

variable {function : Document.Function} {ty : TypeExpr}

namespace Declared

variable (hdeclared : function.Declared)

include hdeclared

/-! ## Operands -/

theorem exists_value_iff {operand : Operand} :
    (∃ value, function.scope.value operand = .ok value) ↔ function.Resolves operand := by
  simp only [hdeclared.value_eq_ok_iff, exists_means_iff]

theorem exists_valueOf_iff {operand : Operand} :
    (∃ value, function.scope.valueOf ty.denoted operand = .ok value) ↔
      function.Accepts ty operand := by
  simp only [hdeclared.valueOf_eq_ok_iff]
  constructor
  · rintro ⟨value, hmeans, hty⟩
    rw [hmeans.ty_eq, TypeExpr.denoted_inj] at hty
    exact ⟨exists_means_iff.mp ⟨value, hmeans⟩, hty⟩
  · rintro ⟨hresolves, rfl⟩
    obtain ⟨value, hmeans⟩ := exists_means_iff.mpr hresolves
    exact ⟨value, hmeans, hmeans.ty_eq⟩

theorem exists_valueOf_bool_iff {operand : Operand} :
    (∃ value, function.scope.valueOf .bool operand = .ok value) ↔
      function.Accepts (.int 1) operand :=
  @exists_valueOf_iff function (.int 1) hdeclared operand

theorem exists_valueOf_pointer_iff {operand : Operand} :
    (∃ value, function.scope.valueOf .pointer operand = .ok value) ↔
      function.Accepts .pointer operand :=
  @exists_valueOf_iff function .pointer hdeclared operand

theorem exists_incoming_iff {edge : Document.Incoming} :
    (∃ result, function.scope.incoming ty.denoted edge = .ok result) ↔
      function.Accepts ty edge.value ∧ edge.block ∈ function.labels := by
  simp only [Scope.incoming, Outcome.exists_bind_eq_ok_iff, Outcome.pure_eq_ok_iff, exists_eq',
    and_true, label_eq_ok_iff, exists_and_right, exists_and_left, exists_eq,
    hdeclared.exists_valueOf_iff]

/-! ## Instructions -/

/-- An operation is accepted if the rule of its kind permits it. -/
theorem exists_operation_iff (hty : ty.Valid) {operation : Document.Operation} :
    (∃ instruction, function.scope.operation ty.denoted operation = .ok instruction) ↔
      function.Permits ty operation := by
  cases operation with
  | phi incoming =>
      cases incoming with
      | nil => simp [Scope.operation, Permits, Outcome.throw_ne_ok]
      | cons first rest =>
          simp only [Scope.operation, List.isEmpty_cons, Bool.false_eq_true, if_false,
            Outcome.exists_bind_eq_ok_iff, Outcome.pure_eq_ok_iff, exists_eq', and_true,
            Outcome.exists_mapM_eq_ok_iff, hdeclared.exists_incoming_iff, Permits, ne_eq,
            reduceCtorEq, not_false_eq_true, true_and]
  | select cond thenValue elseValue =>
      simp only [Scope.operation, Outcome.exists_bind_eq_ok_iff, Outcome.pure_eq_ok_iff, exists_eq',
        and_true, exists_and_right, hdeclared.exists_valueOf_bool_iff,
        hdeclared.exists_valueOf_iff, Permits]
  | binary mnemonic lhs rhs =>
      have hopcode := @Scope.exists_opcode_iff _ .binary _ BinaryOp.mnemonic BinaryOp.mem_all
        mnemonic
      simp only [Scope.operation, Outcome.exists_bind_eq_ok_iff, Outcome.pure_eq_ok_iff, exists_eq',
        and_true, exists_and_right, hdeclared.exists_valueOf_iff, Permits]
      exact and_congr_left' hopcode
  | compare mnemonic lhs rhs =>
      have hopcode := @Scope.exists_opcode_iff _ .predicate _ Predicate.mnemonic Predicate.mem_all
        mnemonic
      simp only [Scope.operation, Outcome.exists_guard_eq_ok_iff, ne_eq, not_not,
        TypeExpr.denoted_eq_bool_iff, Outcome.exists_bind_eq_ok_iff, Outcome.pure_eq_ok_iff,
        exists_eq', and_true, exists_and_right, hdeclared.value_eq_ok_iff, Permits]
      refine and_congr_right fun _ => ?_
      -- The right operand is held to the type that the left one turns out to have.
      constructor
      · rintro ⟨left, hleft, hright, hknown⟩
        rw [hleft.ty_eq, hdeclared.exists_valueOf_iff] at hright
        exact ⟨hopcode.mp hknown, exists_means_iff.mp ⟨left, hleft⟩, hright⟩
      · rintro ⟨hknown, hleft, hright⟩
        obtain ⟨left, hleft⟩ := exists_means_iff.mpr hleft
        rw [← hdeclared.exists_valueOf_iff, ← hleft.ty_eq] at hright
        exact ⟨left, hleft, hright, hopcode.mpr hknown⟩
  | cast mnemonic operand =>
      have hopcode := @Scope.exists_opcode_iff _ .cast _ CastOp.mnemonic CastOp.mem_all mnemonic
      simp only [Scope.operation, Outcome.exists_bind_eq_ok_iff, Outcome.pure_eq_ok_iff, exists_eq',
        and_true, exists_and_right, hdeclared.exists_value_iff, Permits]
      exact and_congr_left' hopcode
  | alloca allocatedType size =>
      simp only [Scope.operation, Outcome.exists_guard_eq_ok_iff, ne_eq, not_not,
        TypeExpr.denoted_eq_pointer_iff, Outcome.exists_bind_eq_ok_iff, Outcome.pure_eq_ok_iff,
        exists_eq', and_true, exists_and_right, Outcome.exists_option_mapM_eq_ok_iff,
        hdeclared.exists_value_iff, Ty.ofExpr_eq_ok_iff, exists_and_left, exists_eq, Permits]
      exact and_congr_right fun _ => and_comm
  | load pointeeType pointer =>
      simp only [Scope.operation, Outcome.exists_bind_eq_ok_iff, Outcome.exists_guard_eq_ok_iff,
        ne_eq, not_not, Outcome.pure_eq_ok_iff, exists_eq', and_true,
        Ty.ofExpr_eq_ok_iff, hdeclared.exists_valueOf_pointer_iff, Permits]
      constructor
      · rintro ⟨_, ⟨_, rfl⟩, hsame, hpointer⟩
        exact ⟨(TypeExpr.denoted_inj.mp hsame).symm, hpointer⟩
      · rintro ⟨rfl, hpointer⟩
        exact ⟨_, ⟨hty, rfl⟩, rfl, hpointer⟩
  | store pointeeType pointer value =>
      simp only [Scope.operation, Outcome.exists_guard_eq_ok_iff, ne_eq, not_not,
        TypeExpr.denoted_eq_void_iff, Outcome.exists_bind_eq_ok_iff, Outcome.pure_eq_ok_iff,
        exists_eq', and_true, exists_and_right, Ty.ofExpr_eq_ok_iff,
        hdeclared.exists_valueOf_pointer_iff, Permits]
      refine and_congr_right fun _ => ?_
      constructor
      · rintro ⟨_, ⟨hvalid, rfl⟩, hpointer, hvalue⟩
        exact ⟨hvalid, hpointer, hdeclared.exists_valueOf_iff.mp hvalue⟩
      · rintro ⟨hvalid, hpointer, hvalue⟩
        exact ⟨_, ⟨hvalid, rfl⟩, hpointer, hdeclared.exists_valueOf_iff.mpr hvalue⟩
  | call callee args =>
      simp only [Scope.operation, Outcome.exists_bind_eq_ok_iff, Outcome.pure_eq_ok_iff, exists_eq',
        and_true, exists_and_right, Outcome.exists_mapM_eq_ok_iff,
        hdeclared.exists_valueOf_pointer_iff, hdeclared.exists_value_iff, Permits]
  | other opcode operands =>
      simp only [Scope.operation, Outcome.exists_bind_eq_ok_iff, Outcome.pure_eq_ok_iff, exists_eq',
        and_true, Outcome.exists_mapM_eq_ok_iff, hdeclared.exists_value_iff, Permits]
  | _ => simp [Scope.operation, Permits, Outcome.throw_ne_ok]

/-- A terminator is accepted if it has no result and may end a block. -/
theorem exists_terminator_iff {instruction : Document.Instruction} :
    (∃ terminator, function.scope.terminator instruction = .ok terminator) ↔
      instruction.ty = .void ∧ function.PermitsLast instruction.repr := by
  rw [Scope.terminator, Outcome.exists_guard_eq_ok_iff, not_ne_iff]
  refine and_congr_right fun _ => ?_
  have hvoid : function.scope.ret = .void ↔ function.ret = .void := TypeExpr.denoted_eq_void_iff
  cases instruction.repr with
  | goto target =>
      simp only [Outcome.exists_bind_eq_ok_iff, Outcome.pure_eq_ok_iff, exists_eq', and_true,
        label_eq_ok_iff, exists_and_left, exists_eq]
      rfl
  | branch cond thenCase elseCase =>
      simp only [Outcome.exists_bind_eq_ok_iff, Outcome.pure_eq_ok_iff, exists_eq', and_true,
        label_eq_ok_iff, exists_and_left, exists_and_right, exists_eq,
        hdeclared.exists_valueOf_bool_iff]
      rfl
  | ret value =>
      cases value with
      | none =>
          by_cases hret : function.scope.ret = .void
          · rw [if_pos hret]
            exact iff_of_true ⟨_, rfl⟩ (hvoid.mp hret)
          · rw [if_neg hret]
            exact iff_of_false Outcome.not_exists_throw_eq_ok (mt hvoid.mpr hret)
      | some value =>
          simp only [Outcome.exists_guard_eq_ok_iff, Outcome.exists_bind_eq_ok_iff,
            Outcome.pure_eq_ok_iff, exists_eq', and_true, hvoid]
          exact and_congr_right fun _ => hdeclared.exists_valueOf_iff
  | unreachable => exact iff_of_true ⟨_, rfl⟩ trivial
  | _ => exact iff_of_false Outcome.not_exists_throw_eq_ok id

/-- An instruction of the function is in the table, so only its operation has to be checked. -/
theorem exists_node_iff {instruction : Document.Instruction}
    (hinstruction : instruction ∈ function.instructions) :
    (∃ entry, function.scope.node instruction = .ok entry) ↔
      function.Permits instruction.ty instruction.repr := by
  obtain ⟨id, hid⟩ := List.mem_iff_getElem?.mp hinstruction
  have hty := hdeclared.types_valid instruction hinstruction
  simp only [Scope.node, hdeclared.find?_eq_some hid, Outcome.exists_bind_eq_ok_iff,
    Outcome.pure_eq_ok_iff, exists_eq', and_true, Ty.ofExpr_eq_ok_iff]
  constructor
  · rintro ⟨_, ⟨_, rfl⟩, hoperation⟩
    exact (hdeclared.exists_operation_iff hty).mp hoperation
  · intro hpermits
    exact ⟨_, ⟨hty, rfl⟩, (hdeclared.exists_operation_iff hty).mpr hpermits⟩

/-! ## Blocks -/

theorem exists_block_iff {block : Document.Block} (hblock : block ∈ function.blocks) :
    (∃ result, function.scope.block block = .ok result) ↔
      (∀ instruction ∈ block.body, function.Permits instruction.ty instruction.repr) ∧
        block.terminator.ty = .void ∧ function.PermitsLast block.terminator.repr := by
  simp only [Scope.block, Outcome.exists_bind_eq_ok_iff, Outcome.pure_eq_ok_iff, exists_eq',
    and_true, exists_and_right, Outcome.exists_mapM_eq_ok_iff, hdeclared.exists_terminator_iff]
  refine and_congr_left' (forall₂_congr fun instruction hinstruction => ?_)
  exact hdeclared.exists_node_iff (List.mem_flatMap.mpr ⟨block, hblock, hinstruction⟩)

theorem exists_blocks_iff :
    (∃ result, function.scope.blocks function.blocks = .ok result) ↔
      (∀ instruction ∈ function.instructions,
        function.Permits instruction.ty instruction.repr) ∧
      ∀ instruction ∈ function.terminators,
        instruction.ty = .void ∧ function.PermitsLast instruction.repr := by
  simp only [Scope.blocks, Outcome.exists_bind_eq_ok_iff, Outcome.pure_eq_ok_iff, exists_eq',
    and_true, Outcome.exists_mapM_eq_ok_iff]
  constructor
  · intro hchecked
    refine ⟨fun instruction hinstruction => ?_, fun terminator hterminator => ?_⟩
    · obtain ⟨block, hblock, hmem⟩ := List.mem_flatMap.mp hinstruction
      exact ((hdeclared.exists_block_iff hblock).mp (hchecked block hblock)).1 instruction hmem
    · obtain ⟨block, hblock, rfl⟩ := List.mem_map.mp hterminator
      exact ((hdeclared.exists_block_iff hblock).mp (hchecked block hblock)).2
  · rintro ⟨hpermits, hlast⟩ block hblock
    refine (hdeclared.exists_block_iff hblock).mpr ⟨fun instruction hmem => ?_, ?_⟩
    · exact hpermits instruction (List.mem_flatMap.mpr ⟨block, hblock, hmem⟩)
    · exact hlast block.terminator (List.mem_map_of_mem hblock)

end Declared

/-- A function is accepted if it is well-formed. -/
theorem exists_ofDocument_iff {document : Document.Function} :
    (∃ function, ValueRange.Function.ofDocument document = .ok function) ↔ document.WellFormed := by
  simp only [ValueRange.Function.ofDocument_eq_ok_iff]
  constructor
  · rintro ⟨_, hdeclared, blocks, nodes, _, hblocks, _⟩
    obtain ⟨hpermits, hlast⟩ := hdeclared.exists_blocks_iff.mp ⟨_, hblocks⟩
    exact ⟨hdeclared, hpermits, hlast⟩
  · intro hwellFormed
    have hdeclared := hwellFormed.toDeclared
    obtain ⟨⟨blocks, nodes⟩, hblocks⟩ :=
      hdeclared.exists_blocks_iff.mpr ⟨hwellFormed.permits, hwellFormed.permitsLast⟩
    obtain ⟨body, hbody⟩ := hdeclared.exists_ofNodes_of_blocks hblocks
    exact ⟨_, hdeclared, blocks, nodes, body, hblocks, hbody, rfl⟩

end Document.Function

namespace Module

/-- No name is reported if the names differ from each other and from the earlier ones. -/
theorem repeated?_eq_none_iff {earlier names : List String} :
    repeated? earlier names = none ↔ names.Nodup ∧ ∀ name ∈ names, name ∉ earlier := by
  induction names generalizing earlier with
  | nil => simp [repeated?]
  | cons name names ih =>
      by_cases hname : name ∈ earlier
      · simp [repeated?, hname]
      · have hstep : repeated? earlier (name :: names) = repeated? (name :: earlier) names := by
          simp [repeated?, hname]
        rw [hstep, ih, List.nodup_cons, List.forall_mem_cons]
        constructor
        · rintro ⟨hnodup, hnames⟩
          have hfresh : name ∉ names := fun hmem => hnames name hmem List.mem_cons_self
          exact ⟨⟨hfresh, hnodup⟩, hname, fun other hother hearlier =>
            hnames other hother (List.mem_cons_of_mem _ hearlier)⟩
        · rintro ⟨⟨hfresh, hnodup⟩, _, hnames⟩
          refine ⟨hnodup, fun other hother hmem => ?_⟩
          rcases List.mem_cons.mp hmem with rfl | hearlier
          · exact hfresh hother
          · exact hnames other hother hearlier

/-- Checking a module succeeds if and only if the module is well-formed. -/
theorem accepted_iff_wellFormed (document : Document.Module) :
    (∃ module, ofDocument document = .ok module) ↔ document.WellFormed := by
  have hfunctions : (∃ functions, document.functions.mapM Function.ofDocument = .ok functions) ↔
      ∀ function ∈ document.functions, function.WellFormed := by
    simp only [Outcome.exists_mapM_eq_ok_iff, Document.Function.exists_ofDocument_iff]
  have hnames := @repeated?_eq_none_iff [] (document.functions.map Document.Function.name)
  simp only [List.not_mem_nil, not_false_eq_true, implies_true, and_true] at hnames
  rw [ofDocument]
  split
  · rename_i name hrepeated
    simp only [Outcome.throw_ne_ok, exists_false, false_iff]
    intro hwellFormed
    rw [hnames.mpr hwellFormed.names_nodup] at hrepeated
    exact Option.some_ne_none name hrepeated.symm
  · rename_i hdistinct
    simp only [Outcome.exists_bind_eq_ok_iff, Outcome.pure_eq_ok_iff, exists_eq', and_true,
      hfunctions]
    constructor
    · intro hwellFormed
      exact ⟨hnames.mp hdistinct, hwellFormed⟩
    · intro hwellFormed
      exact hwellFormed.functions

end Module

end ValueRange

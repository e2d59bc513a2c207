import Mathlib.Data.List.Nodup
import ValueRange.Proofs.WellFormedness

/-!
# What a function declares

Before the operands of a function are checked, its instructions are entered into a table, each index
with the position and the type of its instruction. The table is made if and only if the declarations
of the function are sound, and then it is known: instructions are numbered in the order in which
they are written, terminators have an index but no number. So it is also known what every operand of
the document means.
-/

namespace ValueRange

open Document (TypeExpr)

namespace Definitions

/-- The table of instructions and terminators. -/
def table (instructions terminators : List Document.Instruction) : Definitions :=
  ⟨(instructions.mapIdx fun id instruction =>
      ⟨instruction.index, id, instruction.ty.denoted⟩).reverse,
    (terminators.map Document.Instruction.index).reverse⟩

/-- No two of the instructions and terminators carry the same index. -/
def Distinct (instructions terminators : List Document.Instruction) : Prop :=
  ((instructions ++ terminators).map Document.Instruction.index).Nodup

variable {instructions terminators : List Document.Instruction}
  {instruction terminator : Document.Instruction} {index : UInt64}
  {definition : Definition} {definitions : Definitions}

theorem mem_table :
    definition ∈ (table instructions terminators).instructions ↔
      ∃ instruction, instructions[definition.id]? = some instruction ∧
        definition = ⟨instruction.index, definition.id, instruction.ty.denoted⟩ := by
  simp only [table, List.mem_reverse, List.mem_mapIdx]
  constructor
  · rintro ⟨id, hid, rfl⟩
    exact ⟨instructions[id], List.getElem?_eq_getElem hid, rfl⟩
  · rintro ⟨instruction, hinstruction, hdefinition⟩
    obtain ⟨hid, rfl⟩ := List.getElem?_eq_some_iff.mp hinstruction
    exact ⟨definition.id, hid, hdefinition.symm⟩

theorem taken_table_iff :
    (table instructions terminators).taken index = true ↔
      index ∈ (instructions ++ terminators).map Document.Instruction.index := by
  have hinstructions :
      ((table instructions terminators).find? index).isSome = true ↔
        index ∈ instructions.map Document.Instruction.index := by
    rw [find?, List.find?_isSome, List.mem_map]
    simp only [mem_table, decide_eq_true_eq]
    constructor
    · rintro ⟨definition, ⟨instruction, hinstruction, hdefinition⟩, rfl⟩
      exact ⟨instruction, List.mem_of_getElem? hinstruction, by rw [hdefinition]⟩
    · rintro ⟨instruction, hinstruction, rfl⟩
      obtain ⟨id, hid⟩ := List.mem_iff_getElem?.mp hinstruction
      exact ⟨⟨instruction.index, id, instruction.ty.denoted⟩, ⟨instruction, hid, rfl⟩, rfl⟩
  have hterminators :
      (table instructions terminators).terminators.contains index = true ↔
        index ∈ terminators.map Document.Instruction.index := by
    simp [table]
  rw [taken, Bool.or_eq_true, hinstructions, hterminators, List.map_append, List.mem_append,
    or_comm]

/-- Looking an index up finds the position and type of the instruction that carries it. -/
theorem find?_table_eq_some_iff
    (hnodup : (instructions.map Document.Instruction.index).Nodup) :
    (table instructions terminators).find? index = some definition ↔
      ∃ instruction, instructions[definition.id]? = some instruction ∧
        instruction.index = index ∧
        definition = ⟨instruction.index, definition.id, instruction.ty.denoted⟩ := by
  have hfound : ∀ {definition}, (table instructions terminators).find? index = some definition →
      ∃ instruction, instructions[definition.id]? = some instruction ∧
        instruction.index = index ∧
        definition = ⟨instruction.index, definition.id, instruction.ty.denoted⟩ := by
    intro definition hfind
    obtain ⟨instruction, hinstruction, hdefinition⟩ :=
      mem_table.mp (List.mem_of_find?_eq_some hfind)
    rw [find?] at hfind
    have hindex : definition.index = index := by simpa using List.find?_some hfind
    rw [hdefinition] at hindex
    exact ⟨instruction, hinstruction, hindex, hdefinition⟩
  constructor
  · exact hfound
  · rintro ⟨instruction, hinstruction, hindex, hdefinition⟩
    have hmem : definition ∈ (table instructions terminators).instructions :=
      mem_table.mpr ⟨instruction, hinstruction, hdefinition⟩
    have hsome : ((table instructions terminators).find? index).isSome = true := by
      rw [find?, List.find?_isSome]
      refine ⟨definition, hmem, ?_⟩
      rw [hdefinition, decide_eq_true_eq]
      exact hindex
    obtain ⟨other, hother⟩ := Option.isSome_iff_exists.mp hsome
    obtain ⟨instruction', hinstruction', hindex', hdefinition'⟩ := hfound hother
    -- Both definitions are for the one instruction that carries the index.
    have hid : definition.id = other.id := by
      have hlt : definition.id < (instructions.map Document.Instruction.index).length := by
        rw [List.length_map]
        exact (List.getElem?_eq_some_iff.mp hinstruction).1
      rw [← List.getElem?_inj hlt hnodup, List.getElem?_map, List.getElem?_map, hinstruction,
        hinstruction', Option.map_some, Option.map_some, hindex, hindex']
    rw [← hid, hinstruction] at hinstruction'
    rw [hother, hdefinition', ← hid, ← Option.some.inj hinstruction', ← hdefinition]

/-! ## Making the table -/

theorem addInstruction_table_eq_ok_iff :
    (table instructions terminators).addInstruction instruction = .ok definitions ↔
      instruction.ty.Valid ∧
        instruction.index ∉ (instructions ++ terminators).map Document.Instruction.index ∧
        definitions = table (instructions ++ [instruction]) terminators := by
  have hnext : table (instructions ++ [instruction]) terminators =
      { table instructions terminators with
        instructions :=
          ⟨instruction.index, (table instructions terminators).instructions.length,
            instruction.ty.denoted⟩ :: (table instructions terminators).instructions } := by
    simp [table, List.mapIdx_concat]
  rw [addInstruction, Outcome.bind_eq_ok_iff, ← taken_table_iff, hnext]
  simp only [Ty.ofExpr_eq_ok_iff]
  constructor
  · rintro ⟨ty, ⟨hvalid, rfl⟩, hdefinitions⟩
    split at hdefinitions
    · exact absurd hdefinitions Outcome.throw_ne_ok
    · rename_i htaken
      exact ⟨hvalid, htaken, (Outcome.pure_eq_ok_iff.mp hdefinitions).symm⟩
  · rintro ⟨hvalid, htaken, rfl⟩
    refine ⟨_, ⟨hvalid, rfl⟩, ?_⟩
    rw [if_neg htaken]
    rfl

theorem addTerminator_table_eq_ok_iff :
    (table instructions terminators).addTerminator terminator = .ok definitions ↔
      terminator.index ∉ (instructions ++ terminators).map Document.Instruction.index ∧
        definitions = table instructions (terminators ++ [terminator]) := by
  have hnext : table instructions (terminators ++ [terminator]) =
      { table instructions terminators with
        terminators := terminator.index :: (table instructions terminators).terminators } := by
    simp [table]
  rw [addTerminator, ← taken_table_iff, hnext]
  split
  · rename_i htaken
    simp [htaken, Outcome.throw_ne_ok]
  · rename_i htaken
    rw [Outcome.pure_eq_ok_iff, eq_comm, and_iff_right htaken]

theorem Distinct.of_append {more : List Document.Instruction}
    (hdistinct : Distinct (instructions ++ more) terminators) :
    Distinct instructions terminators := by
  refine List.Nodup.sublist (List.Sublist.map _ ?_) hdistinct
  exact List.Sublist.append (List.sublist_append_left _ _) (List.Sublist.refl _)

theorem distinct_append_instruction (hdistinct : Distinct instructions terminators) :
    Distinct (instructions ++ [instruction]) terminators ↔
      instruction.index ∉ (instructions ++ terminators).map Document.Instruction.index := by
  have hperm : (instructions ++ [instruction] ++ terminators).Perm
      (instruction :: (instructions ++ terminators)) := by
    rw [List.append_assoc, List.singleton_append]
    exact List.perm_middle
  rw [Distinct, (hperm.map _).nodup_iff, List.map_cons, List.nodup_cons]
  exact and_iff_left hdistinct

theorem distinct_append_terminator (hdistinct : Distinct instructions terminators) :
    Distinct instructions (terminators ++ [terminator]) ↔
      terminator.index ∉ (instructions ++ terminators).map Document.Instruction.index := by
  have hperm : (instructions ++ (terminators ++ [terminator])).Perm
      (terminator :: (instructions ++ terminators)) := by
    rw [← List.append_assoc]
    exact List.perm_append_singleton _ _
  rw [Distinct, (hperm.map _).nodup_iff, List.map_cons, List.nodup_cons]
  exact and_iff_left hdistinct

theorem foldlM_addInstruction_eq_ok_iff {body : List Document.Instruction}
    (hdistinct : Distinct instructions terminators) :
    body.foldlM addInstruction (table instructions terminators) = .ok definitions ↔
      (∀ instruction ∈ body, instruction.ty.Valid) ∧
        Distinct (instructions ++ body) terminators ∧
        definitions = table (instructions ++ body) terminators := by
  induction body generalizing instructions with
  | nil =>
      rw [List.foldlM_nil, Outcome.pure_eq_ok_iff, List.append_nil, and_iff_right hdistinct,
        eq_comm]
      simp
  | cons first rest ih =>
      have hassoc : instructions ++ first :: rest = instructions ++ [first] ++ rest := by simp
      rw [List.foldlM_cons, Outcome.bind_eq_ok_iff, List.forall_mem_cons, hassoc]
      simp only [addInstruction_table_eq_ok_iff]
      constructor
      · rintro ⟨_, ⟨hvalid, hfresh, rfl⟩, hrest⟩
        have hfirst := (distinct_append_instruction hdistinct).mpr hfresh
        obtain ⟨hvalidRest, hdistinctRest, rfl⟩ := (ih hfirst).mp hrest
        exact ⟨⟨hvalid, hvalidRest⟩, hdistinctRest, rfl⟩
      · rintro ⟨⟨hvalid, hvalidRest⟩, hdistinctRest, rfl⟩
        have hfirst := hdistinctRest.of_append
        exact ⟨_, ⟨hvalid, (distinct_append_instruction hdistinct).mp hfirst, rfl⟩,
          (ih hfirst).mpr ⟨hvalidRest, hdistinctRest, rfl⟩⟩

theorem addBlock_table_eq_ok_iff {block : Document.Block}
    (hdistinct : Distinct instructions terminators) :
    (table instructions terminators).addBlock block = .ok definitions ↔
      (∀ instruction ∈ block.body, instruction.ty.Valid) ∧
        Distinct (instructions ++ block.body) (terminators ++ [block.terminator]) ∧
        definitions = table (instructions ++ block.body) (terminators ++ [block.terminator]) := by
  rw [addBlock, Outcome.bind_eq_ok_iff]
  simp only [foldlM_addInstruction_eq_ok_iff hdistinct]
  constructor
  · rintro ⟨_, ⟨hvalid, hbody, rfl⟩, hterminator⟩
    obtain ⟨hfresh, rfl⟩ := addTerminator_table_eq_ok_iff.mp hterminator
    exact ⟨hvalid, (distinct_append_terminator hbody).mpr hfresh, rfl⟩
  · rintro ⟨hvalid, hblock, rfl⟩
    have hbody : Distinct (instructions ++ block.body) terminators := by
      refine List.Nodup.sublist (List.Sublist.map _ ?_) hblock
      rw [← List.append_assoc]
      exact List.sublist_append_left _ _
    exact ⟨_, ⟨hvalid, hbody, rfl⟩, addTerminator_table_eq_ok_iff.mpr
      ⟨(distinct_append_terminator hbody).mp hblock, rfl⟩⟩

theorem foldlM_addBlock_eq_ok_iff {blocks : List Document.Block}
    (hdistinct : Distinct instructions terminators) :
    blocks.foldlM addBlock (table instructions terminators) = .ok definitions ↔
      (∀ instruction ∈ blocks.flatMap Document.Block.body, instruction.ty.Valid) ∧
        Distinct (instructions ++ blocks.flatMap Document.Block.body)
          (terminators ++ blocks.map Document.Block.terminator) ∧
        definitions = table (instructions ++ blocks.flatMap Document.Block.body)
          (terminators ++ blocks.map Document.Block.terminator) := by
  induction blocks generalizing instructions terminators with
  | nil =>
      rw [List.foldlM_nil, Outcome.pure_eq_ok_iff, List.flatMap_nil, List.map_nil, List.append_nil,
        List.append_nil, and_iff_right hdistinct, eq_comm]
      simp
  | cons first rest ih =>
      have hinstructions : instructions ++ (first :: rest).flatMap Document.Block.body =
          instructions ++ first.body ++ rest.flatMap Document.Block.body := by simp
      have hterminators : terminators ++ (first :: rest).map Document.Block.terminator =
          terminators ++ [first.terminator] ++ rest.map Document.Block.terminator := by simp
      rw [List.foldlM_cons, Outcome.bind_eq_ok_iff, hinstructions, hterminators, List.flatMap_cons,
        List.forall_mem_append]
      simp only [addBlock_table_eq_ok_iff hdistinct]
      constructor
      · rintro ⟨_, ⟨hvalid, hfirst, rfl⟩, hrest⟩
        obtain ⟨hvalidRest, hdistinctRest, rfl⟩ := (ih hfirst).mp hrest
        exact ⟨⟨hvalid, hvalidRest⟩, hdistinctRest, rfl⟩
      · rintro ⟨⟨hvalid, hvalidRest⟩, hdistinctRest, rfl⟩
        have hfirst :
            Distinct (instructions ++ first.body) (terminators ++ [first.terminator]) := by
          refine List.Nodup.sublist (List.Sublist.map _ ?_) hdistinctRest
          exact List.Sublist.append (List.sublist_append_left _ _) (List.sublist_append_left _ _)
        exact ⟨_, ⟨hvalid, hfirst, rfl⟩, (ih hfirst).mpr ⟨hvalidRest, hdistinctRest, rfl⟩⟩

/-- The table of a function is made if its types are valid and its indices are unique. -/
theorem ofBlocks_eq_ok_iff {function : Document.Function} :
    ofBlocks function.blocks = .ok definitions ↔
      (∀ instruction ∈ function.instructions, instruction.ty.Valid) ∧
        Distinct function.instructions function.terminators ∧
        definitions = table function.instructions function.terminators :=
  @foldlM_addBlock_eq_ok_iff [] [] definitions function.blocks List.nodup_nil

end Definitions

/-! ## Meaning of operands -/

namespace Document.Function

/-- What the instructions of a function may refer to. -/
def scope (function : Document.Function) : Scope :=
  ⟨function.labels, Definitions.table function.instructions function.terminators,
    function.params.map fun parameter => parameter.ty.denoted, function.ret.denoted⟩

/-- The value that an operand of the document stands for. -/
inductive Means (function : Document.Function) : Operand → Value → Prop
  | constant {constant : Document.Constant} {value : ValueRange.Constant} (hty : constant.ty.Valid)
      (hvalue : ValueRange.Constant.ofLiteral constant.repr constant.ty.denoted = .ok value) :
      Means function (.constant constant) (.constant value constant.ty.denoted)
  | argument {index : UInt64} {parameter : Document.Parameter}
      (hparameter : function.params[index.toNat]? = some parameter) :
      Means function (.argument parameter.ty index) (.argument index.toNat parameter.ty.denoted)
  | register {id : Nat} {instruction : Document.Instruction}
      (hinstruction : function.instructions[id]? = some instruction) :
      Means function (.instruction instruction.ty instruction.index)
        (.register id instruction.ty.denoted)

variable {function : Document.Function} {operand : Operand} {value : Value}

theorem Means.ty_eq (hmeans : function.Means operand value) : value.ty = operand.ty.denoted := by
  cases hmeans <;> rfl

theorem exists_means_iff : (∃ value, function.Means operand value) ↔ function.Resolves operand := by
  constructor
  · rintro ⟨value, hmeans⟩
    cases hmeans with
    | constant hty hvalue => exact ⟨hty, Constant.exists_ofLiteral_iff.mp ⟨_, hvalue⟩⟩
    | argument hparameter => exact ⟨_, hparameter, rfl⟩
    | register hinstruction => exact ⟨_, List.mem_of_getElem? hinstruction, rfl, rfl⟩
  · intro hresolves
    cases operand with
    | constant constant =>
        obtain ⟨hty, hfits⟩ := hresolves
        obtain ⟨value, hvalue⟩ := Constant.exists_ofLiteral_iff.mpr hfits
        exact ⟨_, .constant hty hvalue⟩
    | argument ty index =>
        obtain ⟨parameter, hparameter, rfl⟩ := hresolves
        exact ⟨_, .argument hparameter⟩
    | instruction ty index =>
        obtain ⟨instruction, hinstruction, rfl, rfl⟩ := hresolves
        obtain ⟨id, hid⟩ := List.mem_iff_getElem?.mp hinstruction
        exact ⟨_, .register hid⟩

theorem Declared.indices_of_instructions_nodup (hdeclared : function.Declared) :
    (function.instructions.map Document.Instruction.index).Nodup :=
  hdeclared.indices_nodup.sublist (List.Sublist.map _ (List.sublist_append_left _ _))

/-- The index of an instruction leads to its own position and type. -/
theorem Declared.find?_eq_some (hdeclared : function.Declared) {id : Nat}
    {instruction : Document.Instruction} (hinstruction : function.instructions[id]? = some instruction) :
    function.scope.definitions.find? instruction.index =
      some ⟨instruction.index, id, instruction.ty.denoted⟩ :=
  (Definitions.find?_table_eq_some_iff hdeclared.indices_of_instructions_nodup).mpr
    ⟨instruction, hinstruction, rfl, rfl⟩

/-- Checking an operand gives what it means. -/
theorem Declared.value_eq_ok_iff (hdeclared : function.Declared) :
    function.scope.value operand = .ok value ↔ function.Means operand value := by
  cases operand with
  | constant constant =>
      simp only [Scope.value, Outcome.bind_eq_ok_iff, Outcome.pure_eq_ok_iff, Ty.ofExpr_eq_ok_iff]
      constructor
      · rintro ⟨_, ⟨hty, rfl⟩, value, hvalue, rfl⟩
        exact .constant hty hvalue
      · rintro ⟨hty, hvalue⟩
        exact ⟨_, ⟨hty, rfl⟩, _, hvalue, rfl⟩
  | argument ty index =>
      simp only [Scope.value, scope, List.getElem?_map]
      cases hparameter : function.params[index.toNat]? with
      | none =>
          refine iff_of_false Outcome.throw_ne_ok fun hmeans => ?_
          cases hmeans with
          | argument hsome => cases hparameter.symm.trans hsome
      | some parameter =>
          have hvalid := hdeclared.params_valid _ (List.mem_of_getElem? hparameter)
          refine (Ty.annotated_eq_ok_iff hvalid).trans ⟨?_, fun hmeans => ?_⟩
          · rintro ⟨rfl, rfl⟩
            exact .argument hparameter
          · cases hmeans with
            | argument hsome =>
                cases hparameter.symm.trans hsome
                exact ⟨rfl, rfl⟩
  | instruction ty index =>
      have hfind := fun definition => @Definitions.find?_table_eq_some_iff function.instructions
        function.terminators index definition hdeclared.indices_of_instructions_nodup
      simp only [Scope.value, scope]
      cases hfound : (Definitions.table function.instructions function.terminators).find? index with
      | none =>
          refine iff_of_false Outcome.throw_ne_ok fun hmeans => ?_
          cases hmeans with
          | register hinstruction =>
              have hsome := (hfind ⟨_, _, _⟩).mpr ⟨_, hinstruction, rfl, rfl⟩
              cases hfound.symm.trans hsome
      | some definition =>
          obtain ⟨instruction, hinstruction, rfl, hdefinition⟩ := (hfind definition).mp hfound
          have hvalid := hdeclared.types_valid _ (List.mem_of_getElem? hinstruction)
          rw [hdefinition]
          refine (Ty.annotated_eq_ok_iff hvalid).trans ⟨?_, fun hmeans => ?_⟩
          · rintro ⟨rfl, rfl⟩
            exact .register hinstruction
          · generalize hindex : instruction.index = index at hmeans hfound hfind
            cases hmeans with
            | register hother =>
                have hsome := (hfind ⟨_, _, _⟩).mpr ⟨_, hother, rfl, rfl⟩
                cases hfound.symm.trans hsome
                cases hinstruction.symm.trans hother
                exact ⟨rfl, rfl⟩

theorem Declared.valueOf_eq_ok_iff (hdeclared : function.Declared) {expected : Ty} :
    function.scope.valueOf expected operand = .ok value ↔
      function.Means operand value ∧ value.ty = expected := by
  rw [Scope.valueOf, Outcome.bind_eq_ok_iff]
  constructor
  · rintro ⟨found, hfound, hvalue⟩
    split at hvalue
    · rename_i hexpected
      cases Outcome.pure_eq_ok_iff.mp hvalue
      exact ⟨hdeclared.value_eq_ok_iff.mp hfound, hexpected⟩
    · exact absurd hvalue Outcome.throw_ne_ok
  · rintro ⟨hmeans, hexpected⟩
    refine ⟨value, hdeclared.value_eq_ok_iff.mpr hmeans, ?_⟩
    rw [if_pos hexpected]
    rfl

theorem label_eq_ok_iff {label result : UInt64} :
    function.scope.label label = .ok result ↔ label ∈ function.labels ∧ result = label := by
  by_cases hlabel : label ∈ function.labels
  · simp [Scope.label, scope, hlabel, pure, Except.pure, eq_comm]
  · simp [Scope.label, scope, hlabel, Outcome.throw_ne_ok]

end Document.Function

/-! ## Checking a function in its scope -/

theorem Parameter.ofDocument_eq_ok_iff {document : Document.Parameter} {parameter : Parameter} :
    Parameter.ofDocument document = .ok parameter ↔
      document.ty.Valid ∧ parameter = ⟨document.name, document.ty.denoted⟩ := by
  simp only [Parameter.ofDocument, Outcome.bind_eq_ok_iff, Outcome.pure_eq_ok_iff,
    Ty.ofExpr_eq_ok_iff]
  constructor
  · rintro ⟨_, ⟨hvalid, rfl⟩, rfl⟩
    exact ⟨hvalid, rfl⟩
  · rintro ⟨hvalid, rfl⟩
    exact ⟨_, ⟨hvalid, rfl⟩, rfl⟩

theorem Body.ofDocument_eq_ok_iff {document : Document.Function} {body : Body}
    (hparams : ∀ parameter ∈ document.params, parameter.ty.Valid) (hret : document.ret.Valid) :
    Body.ofDocument (document.params.map fun parameter => parameter.ty.denoted)
        document.ret.denoted document.blocks = .ok body ↔
      document.Declared ∧ ∃ blocks nodes,
        document.scope.blocks document.blocks = .ok (blocks, nodes) ∧
          Body.ofNodes blocks nodes = .ok body := by
  constructor
  · intro hbody
    rw [Body.ofDocument] at hbody
    split at hbody
    · rename_i hlabels
      obtain ⟨definitions, hdefinitions, hbody⟩ := Outcome.bind_eq_ok_iff.mp hbody
      obtain ⟨htypes, hindices, rfl⟩ := Definitions.ofBlocks_eq_ok_iff.mp hdefinitions
      obtain ⟨⟨blocks, nodes⟩, hblocks, hbody⟩ := Outcome.bind_eq_ok_iff.mp hbody
      exact ⟨⟨hparams, hret, hlabels, htypes, hindices⟩, blocks, nodes, hblocks, hbody⟩
    · exact absurd hbody Outcome.throw_ne_ok
  · rintro ⟨hdeclared, blocks, nodes, hblocks, hbody⟩
    have hlabels : (document.blocks.map Document.Block.label).Nodup := hdeclared.labels_nodup
    rw [Body.ofDocument, if_pos hlabels]
    refine Outcome.bind_eq_ok_iff.mpr ⟨_, Definitions.ofBlocks_eq_ok_iff.mpr
      ⟨hdeclared.types_valid, hdeclared.indices_nodup, rfl⟩, ?_⟩
    exact Outcome.bind_eq_ok_iff.mpr ⟨_, hblocks, hbody⟩

/-- A function is checked by checking its blocks in its scope, once its declarations are sound. -/
theorem Function.ofDocument_eq_ok_iff {document : Document.Function} {function : Function} :
    Function.ofDocument document = .ok function ↔
      document.Declared ∧ ∃ blocks nodes body,
        document.scope.blocks document.blocks = .ok (blocks, nodes) ∧
          Body.ofNodes blocks nodes = .ok body ∧
          function = ⟨document.name,
            document.params.map fun parameter => ⟨parameter.name, parameter.ty.denoted⟩,
            document.ret.denoted, if document.blocks.isEmpty then none else some body⟩ := by
  have hparams := @Outcome.mapM_eq_ok_iff_map _ _ Parameter.ofDocument _ _
    (fun _ _ => Parameter.ofDocument_eq_ok_iff) document.params
  have htypes : (document.params.map fun parameter =>
      (⟨parameter.name, parameter.ty.denoted⟩ : Parameter)).map Parameter.ty =
        document.params.map fun parameter => parameter.ty.denoted := by
    rw [List.map_map]
    rfl
  simp only [Function.ofDocument, Outcome.bind_eq_ok_iff, hparams, Ty.ofExpr_eq_ok_iff]
  by_cases hempty : document.blocks = []
  · simp only [hempty, List.isEmpty_nil, if_true, Outcome.pure_eq_ok_iff]
    constructor
    · rintro ⟨_, ⟨hparams, rfl⟩, _, ⟨hret, rfl⟩, rfl⟩
      have hdeclared : document.Declared := by
        refine ⟨hparams, hret, ?_, ?_, ?_⟩ <;>
          simp [Document.Function.labels, Document.Function.instructions,
            Document.Function.terminators, hempty]
      exact ⟨hdeclared, [], [], _, rfl, rfl, rfl⟩
    · rintro ⟨hdeclared, _, _, _, _, _, rfl⟩
      exact ⟨_, ⟨hdeclared.params_valid, rfl⟩, _, ⟨hdeclared.ret_valid, rfl⟩, rfl⟩
  · have hnonempty : document.blocks.isEmpty = false := by simpa using hempty
    simp only [hnonempty, Bool.false_eq_true, if_false, Outcome.bind_eq_ok_iff,
      Outcome.pure_eq_ok_iff]
    constructor
    · rintro ⟨_, ⟨hparams, rfl⟩, _, ⟨hret, rfl⟩, body, hbody, rfl⟩
      rw [htypes, Body.ofDocument_eq_ok_iff hparams hret] at hbody
      obtain ⟨hdeclared, blocks, nodes, hblocks, hbody⟩ := hbody
      exact ⟨hdeclared, blocks, nodes, body, hblocks, hbody, rfl⟩
    · rintro ⟨hdeclared, blocks, nodes, body, hblocks, hbody, rfl⟩
      have hparams := hdeclared.params_valid
      have hret := hdeclared.ret_valid
      refine ⟨_, ⟨hparams, rfl⟩, _, ⟨hret, rfl⟩, body, ?_, rfl⟩
      rw [htypes, Body.ofDocument_eq_ok_iff hparams hret]
      exact ⟨hdeclared, blocks, nodes, hblocks, hbody⟩

end ValueRange

import ValueRange.Analysis.Transfer
import ValueRange.Proofs.IntervalArithmetic

/-!
# Laws of the transfer function

The interval of an instruction depends on the intervals of its operands only, exists unless the
operator or predicate is not modelled, and keeps the shape of intervals. It is monotone in the store
wherever no end overflows inward.
-/

namespace ValueRange

namespace Store

/-- Every interval of the store has the agreed shape. -/
def WellFormed (store : Store Interval) : Prop :=
  ∀ id interval, store.get? id = some interval → interval.WellFormed

/-- Both stores bind the same identifiers, and each interval of the first one lies within the
interval of the second one. -/
structure Within (left right : Store Interval) : Prop where
  /-- The same identifiers are bound. -/
  isSome_eq : ∀ id, (left.get? id).isSome = (right.get? id).isSome
  /-- The intervals are contained end by end. -/
  le : ∀ {id low high}, left.get? id = some low → right.get? id = some high → low ≤ high

theorem Within.refl (store : Store Interval) : store.Within store where
  isSome_eq _ := rfl
  le hlow hhigh := by
    rw [hlow] at hhigh
    exact (Option.some.inj hhigh).le

theorem Within.exists_le {left right : Store Interval} (hwithin : left.Within right) {id : Nat}
    {low : Interval} (hlow : left.get? id = some low) :
    ∃ high, right.get? id = some high ∧ low ≤ high := by
  have hsome := hwithin.isSome_eq id
  rw [hlow, Option.isSome_some, eq_comm, Option.isSome_iff_exists] at hsome
  obtain ⟨high, hhigh⟩ := hsome
  exact ⟨high, hhigh, hwithin.le hlow hhigh⟩

theorem Within.trans {left middle right : Store Interval} (hleft : left.Within middle)
    (hright : middle.Within right) : left.Within right where
  isSome_eq id := (hleft.isSome_eq id).trans (hright.isSome_eq id)
  le hlow hhigh := by
    obtain ⟨mid, hmid, hle⟩ := hleft.exists_le hlow
    exact hle.trans (hright.le hmid hhigh)

theorem Within.insert {store : Store Interval} {id : Nat} {old new : Interval}
    (hold : store.get? id = some old) (hle : old ≤ new) : store.Within (store.insert id new) where
  isSome_eq other := by
    rw [get?_insert]
    split
    · rename_i hother
      simp [hother, hold]
    · rfl
  le {other low high} hlow hhigh := by
    rw [get?_insert] at hhigh
    split at hhigh
    · rename_i hother
      rw [hother, hold] at hlow
      rw [← Option.some.inj hlow, ← Option.some.inj hhigh]
      exact hle
    · rw [hlow] at hhigh
      exact (Option.some.inj hhigh).le

end Store

namespace Value

/-- Only the result that an operand refers to matters for its interval. -/
theorem interval_congr {left right : Store Interval} {value : Value}
    (hregister : ∀ id, value.register? = some id → left.get? id = right.get? id) :
    value.interval left = value.interval right := by
  cases value with
  | constant constant ty => cases constant <;> rfl
  | argument index ty => rfl
  | register id ty => simp only [interval, hregister id rfl]

theorem wellFormed_interval {store : Store Interval} (hstore : store.WellFormed) (value : Value) :
    (value.interval store).WellFormed := by
  cases value with
  | constant constant ty =>
      cases constant with
      | int bits value => exact Interval.wellFormed_constant value
      | _ => exact Interval.wellFormed_full
  | argument index ty => exact Interval.wellFormed_full
  | register id ty =>
      simp only [interval]
      cases hfound : store.get? id with
      | none => exact Interval.wellFormed_full
      | some found => exact hstore id found hfound

theorem interval_le_interval {left right : Store Interval} (hwithin : left.Within right)
    (value : Value) : value.interval left ≤ value.interval right := by
  cases value with
  | constant constant ty => cases constant <;> exact le_refl _
  | argument index ty => exact le_refl _
  | register id ty =>
      simp only [interval]
      cases hlow : left.get? id with
      | none =>
          have hnone := hwithin.isSome_eq id
          rw [hlow, Option.isSome_none, eq_comm, Option.isSome_eq_false_iff,
            Option.isNone_iff_eq_none] at hnone
          rw [hnone]
      | some low =>
          obtain ⟨high, hhigh, hle⟩ := hwithin.exists_le hlow
          rw [hhigh]
          exact hle

end Value

/-! ## Operators and predicates -/

/-- The interval of a modelled operator, by operator. -/
theorem BinaryOp.apply_eq_ok_iff {opcode : BinaryOp} {left right value : Interval} :
    opcode.apply left right = .ok value ↔
      opcode = .add ∧ value = left.add right ∨ opcode = .sub ∧ value = left.sub right ∨
        (opcode = .mul ∨ opcode = .sdiv) ∧ value = .full := by
  cases opcode <;>
    simp [BinaryOp.apply, Interval.mul, Interval.div, eq_comm]

theorem Predicate.eq_unit_of_apply {predicate : Predicate} {left right value : Interval}
    (hvalue : predicate.apply left right = .ok value) : value = .unit := by
  cases predicate <;>
    simp_all [Predicate.apply, Predicate.signed, Interval.compare]

namespace Instruction

/-- The operator or predicate of a tracked instruction is not modelled. -/
def offending : Instruction → Bool
  | binary opcode _ _ => opcode ∉ [.add, .sub, .mul, .sdiv]
  | compare predicate _ _ => predicate ∈ [.sge, .sle, .uge, .ule]
  | _ => false

theorem exists_transfer_eq_ok {instruction : Instruction} (htracked : instruction.tracked = true)
    (hoffending : instruction.offending = false) (store : Store Interval) :
    ∃ value, instruction.transfer store = .ok value := by
  cases instruction with
  | phi incoming => exact ⟨_, rfl⟩
  | select cond thenValue elseValue => exact ⟨_, rfl⟩
  | binary opcode lhs rhs =>
      cases opcode <;> simp [offending] at hoffending <;> exact ⟨_, rfl⟩
  | compare predicate lhs rhs =>
      cases predicate <;> simp [offending] at hoffending <;> exact ⟨_, rfl⟩
  | alloca allocatedType size => exact ⟨_, rfl⟩
  | load pointeeType pointer => exact ⟨_, rfl⟩
  | call callee args => exact ⟨_, rfl⟩
  | cast opcode operand => cases htracked
  | store pointeeType pointer value => cases htracked
  | other opcode operands => cases htracked

/-! ## Locality -/

theorem mem_registers {instruction : Instruction} {value : Value} {id : Nat}
    (hvalue : value ∈ instruction.operands) (hid : value.register? = some id) :
    id ∈ instruction.registers :=
  List.mem_filterMap.mpr ⟨value, hvalue, hid⟩

/-- An instruction reads nothing of the store but the results it refers to. -/
theorem transfer_congr {left right : Store Interval} {instruction : Instruction}
    (hregisters : ∀ id ∈ instruction.registers, left.get? id = right.get? id) :
    instruction.transfer left = instruction.transfer right := by
  have hoperand : ∀ value ∈ instruction.operands, value.interval left = value.interval right :=
    fun value hvalue =>
      Value.interval_congr fun id hid => hregisters id (mem_registers hvalue hid)
  cases instruction with
  | phi incoming =>
      have hincoming : incomingIntervals left incoming = incomingIntervals right incoming :=
        List.map_congr_left fun edge hedge =>
          hoperand edge.1 (List.mem_map.mpr ⟨edge, hedge, rfl⟩)
      simp only [transfer, hincoming]
  | select cond thenValue elseValue =>
      simp only [transfer, hoperand thenValue (by simp [operands]),
        hoperand elseValue (by simp [operands])]
  | binary opcode lhs rhs =>
      simp only [transfer, hoperand lhs (by simp [operands]), hoperand rhs (by simp [operands])]
  | compare predicate lhs rhs =>
      simp only [transfer, hoperand lhs (by simp [operands]), hoperand rhs (by simp [operands])]
  | _ => rfl

/-! ## Shape -/

theorem wellFormed_of_transfer {store : Store Interval} (hstore : store.WellFormed)
    {instruction : Instruction} {value : Interval}
    (hvalue : instruction.transfer store = .ok value) : value.WellFormed := by
  cases instruction with
  | phi incoming =>
      cases hvalue
      apply Interval.wellFormed_foldl_lub Interval.wellFormed_empty
      intro interval hinterval
      obtain ⟨edge, _, rfl⟩ := List.mem_map.mp hinterval
      exact edge.1.wellFormed_interval hstore
  | select cond thenValue elseValue =>
      cases hvalue
      exact (thenValue.wellFormed_interval hstore).lub (elseValue.wellFormed_interval hstore)
  | binary opcode lhs rhs =>
      have hlhs := lhs.wellFormed_interval hstore
      have hrhs := rhs.wellFormed_interval hstore
      rcases BinaryOp.apply_eq_ok_iff.mp hvalue with ⟨_, rfl⟩ | ⟨_, rfl⟩ | ⟨_, rfl⟩
      · exact hlhs.add hrhs
      · exact hlhs.sub hrhs
      · exact Interval.wellFormed_full
  | compare predicate lhs rhs =>
      rw [Predicate.eq_unit_of_apply hvalue]
      exact Interval.wellFormed_unit
  | alloca allocatedType size =>
      cases hvalue
      exact Interval.wellFormed_full
  | load pointeeType pointer =>
      cases hvalue
      exact Interval.wellFormed_full
  | call callee args =>
      cases hvalue
      exact Interval.wellFormed_full
  | cast opcode operand => cases hvalue
  | store pointeeType pointer value => cases hvalue
  | other opcode operands => cases hvalue

/-! ## Monotonicity -/

/-- Computing the interval of the instruction overflows inward. -/
def OverflowsInward (store : Store Interval) : Instruction → Prop
  | binary opcode lhs rhs =>
    opcode = .add ∧ (lhs.interval store).AddOverflowsInward (rhs.interval store) ∨
      opcode = .sub ∧ (lhs.interval store).SubOverflowsInward (rhs.interval store)
  | _ => False

instance (store : Store Interval) (instruction : Instruction) :
    Decidable (instruction.OverflowsInward store) :=
  match instruction with
  | binary .. => inferInstanceAs (Decidable (_ ∧ _ ∨ _ ∧ _))
  | phi .. | select .. | compare .. | cast .. | alloca .. | load .. | Instruction.store .. | call ..
  | other .. => .isFalse id

theorem transfer_le_transfer {left right : Store Interval} {instruction : Instruction}
    {low high : Interval} (hwithin : left.Within right) (hleft : left.WellFormed)
    (hright : right.WellFormed) (hinward : ¬ instruction.OverflowsInward left)
    (hlow : instruction.transfer left = .ok low) (hhigh : instruction.transfer right = .ok high) :
    low ≤ high := by
  have hoperand := Value.interval_le_interval hwithin
  cases instruction with
  | phi incoming =>
      cases hlow
      cases hhigh
      refine Interval.foldl_lub_le_iff.mpr ⟨Interval.empty_le _, fun interval hinterval => ?_⟩
      obtain ⟨edge, hedge, rfl⟩ := List.mem_map.mp hinterval
      exact (hoperand edge.1).trans
        (Interval.le_foldl_lub (List.mem_map.mpr ⟨edge, hedge, rfl⟩))
  | select cond thenValue elseValue =>
      cases hlow
      cases hhigh
      exact Interval.lub_le_lub (hoperand thenValue) (hoperand elseValue)
  | binary opcode lhs rhs =>
      obtain ⟨hadd, hsub⟩ := not_or.mp hinward
      rcases BinaryOp.apply_eq_ok_iff.mp hlow with ⟨rfl, rfl⟩ | ⟨rfl, rfl⟩ | ⟨hopcode, rfl⟩
      · cases hhigh
        exact Interval.add_le_add_of_not_inward (hoperand lhs) (hoperand rhs)
          fun hoverflow => hadd ⟨rfl, hoverflow⟩
      · cases hhigh
        exact Interval.sub_le_sub_of_not_inward (rhs.wellFormed_interval hleft)
          (rhs.wellFormed_interval hright) (hoperand lhs) (hoperand rhs)
          fun hoverflow => hsub ⟨rfl, hoverflow⟩
      · rcases hopcode with rfl | rfl <;> cases hhigh <;> exact le_refl _
  | compare predicate lhs rhs =>
      rw [Predicate.eq_unit_of_apply hlow, Predicate.eq_unit_of_apply hhigh]
  | alloca allocatedType size =>
      cases hlow
      cases hhigh
      exact le_refl _
  | load pointeeType pointer =>
      cases hlow
      cases hhigh
      exact le_refl _
  | call callee args =>
      cases hlow
      cases hhigh
      exact le_refl _
  | cast opcode operand => cases hlow
  | store pointeeType pointer value => cases hlow
  | other opcode operands => cases hlow

end Instruction

namespace Body

theorem evaluate_of_node? {body : Body} {id : Nat} {node : Node}
    (hnode : body.node? id = some node) (store : Store Interval) :
    body.evaluate id store = node.instruction.transfer store := by
  rw [evaluate, node_eq_ok_iff.mpr hnode]
  rfl

theorem evaluate_eq_ok_iff {body : Body} {id : Nat} {store : Store Interval} {value : Interval} :
    body.evaluate id store = .ok value ↔
      ∃ node, body.node? id = some node ∧ node.instruction.transfer store = .ok value := by
  unfold evaluate Body.node
  cases body.node? id <;> simp [bind, Except.bind]

theorem evaluate_congr {body : Body} {id : Nat} {left right : Store Interval}
    (hregisters : ∀ node, body.node? id = some node →
      ∀ definition ∈ node.instruction.registers, left.get? definition = right.get? definition) :
    body.evaluate id left = body.evaluate id right := by
  cases hnode : body.node? id with
  | none => simp only [evaluate, Body.node, hnode, bind, Except.bind]
  | some node =>
      rw [evaluate_of_node? hnode, evaluate_of_node? hnode]
      exact Instruction.transfer_congr (hregisters node hnode)

theorem tracked_iff {body : Body} {id : Nat} :
    body.tracked id = true ↔ ∃ node, body.node? id = some node ∧ node.instruction.tracked = true := by
  unfold tracked
  cases body.node? id <;> simp

theorem lt_size_of_node? {body : Body} {id : Nat} {node : Node} (hnode : body.node? id = some node) :
    id < body.nodes.size := (Array.getElem?_eq_some_iff.mp hnode).1

theorem mem_trackedIds {body : Body} {id : Nat} :
    id ∈ body.trackedIds ↔ body.tracked id = true := by
  rw [trackedIds, List.mem_filter, ids, List.mem_range, and_iff_right_iff_imp]
  intro htracked
  obtain ⟨node, hnode, _⟩ := tracked_iff.mp htracked
  exact lt_size_of_node? hnode

end Body

end ValueRange

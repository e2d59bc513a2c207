import ValueRange.Proofs.Stability

/-!
# Soundness of the ranges

The collecting semantics of a body gives each tracked instruction the integers it may take, as the
least sets closed under what the instructions do with unbounded integers. Operands that the analysis
does not constrain stand for every integer. The ranges of a function hold all these integers: the
final intervals cover what their operands give, so each rule of the semantics stays within them.
-/

namespace ValueRange

namespace Body

/-- The instruction at a position. -/
def instruction? (body : Body) (id : Nat) : Option Instruction :=
  (body.node? id).map Node.instruction

/-! ## Collecting semantics -/

mutual

/-- The integers that an operand may stand for. -/
inductive Denotes (body : Body) : Value → Int → Prop
  | integer (bits : Nat) (value : Int64) (ty : Ty) :
      Denotes body (.constant (.int bits value) ty) value.toInt
  /-- A constant that is no integer is not constrained. -/
  | constant {constant : Constant} (hconstant : ∀ bits value, constant ≠ .int bits value)
      (ty : Ty) (value : Int) : Denotes body (.constant constant ty) value
  | argument (index : Nat) (ty : Ty) (value : Int) : Denotes body (.argument index ty) value
  | untracked {id : Nat} (hid : body.tracked id = false) (ty : Ty) (value : Int) :
      Denotes body (.register id ty) value
  | tracked {id : Nat} {value : Int} (hvalue : Collects body id value) (ty : Ty) :
      Denotes body (.register id ty) value

/-- The integers that a tracked instruction may take. -/
inductive Collects (body : Body) : Nat → Int → Prop
  | phi {id : Nat} {incoming : List (Value × UInt64)} {edge : Value × UInt64} {value : Int}
      (hid : body.instruction? id = some (.phi incoming)) (hedge : edge ∈ incoming)
      (hvalue : Denotes body edge.1 value) : Collects body id value
  | selectThen {id : Nat} {cond thenValue elseValue : Value} {value : Int}
      (hid : body.instruction? id = some (.select cond thenValue elseValue))
      (hvalue : Denotes body thenValue value) : Collects body id value
  | selectElse {id : Nat} {cond thenValue elseValue : Value} {value : Int}
      (hid : body.instruction? id = some (.select cond thenValue elseValue))
      (hvalue : Denotes body elseValue value) : Collects body id value
  | add {id : Nat} {lhs rhs : Value} {x y : Int}
      (hid : body.instruction? id = some (.binary .add lhs rhs)) (hx : Denotes body lhs x)
      (hy : Denotes body rhs y) : Collects body id (x + y)
  | sub {id : Nat} {lhs rhs : Value} {x y : Int}
      (hid : body.instruction? id = some (.binary .sub lhs rhs)) (hx : Denotes body lhs x)
      (hy : Denotes body rhs y) : Collects body id (x - y)
  | mul {id : Nat} {lhs rhs : Value} (hid : body.instruction? id = some (.binary .mul lhs rhs))
      (value : Int) : Collects body id value
  | sdiv {id : Nat} {lhs rhs : Value} (hid : body.instruction? id = some (.binary .sdiv lhs rhs))
      (value : Int) : Collects body id value
  | compare {id : Nat} {predicate : Predicate} {lhs rhs : Value} {value : Int}
      (hid : body.instruction? id = some (.compare predicate lhs rhs))
      (hvalue : value = 0 ∨ value = 1) : Collects body id value
  | alloca {id : Nat} {allocatedType : Ty} {size : Option Value}
      (hid : body.instruction? id = some (.alloca allocatedType size)) (value : Int) :
      Collects body id value
  | load {id : Nat} {pointeeType : Ty} {pointer : Value}
      (hid : body.instruction? id = some (.load pointeeType pointer)) (value : Int) :
      Collects body id value
  | call {id : Nat} {callee : Value} {args : List Value}
      (hid : body.instruction? id = some (.call callee args)) (value : Int) :
      Collects body id value

end

/-! ## Intervals that hold the collected integers -/

theorem tracked_of_instruction? {body : Body} {id : Nat} {instruction : Instruction}
    (hid : body.instruction? id = some instruction) (htracked : instruction.tracked = true) :
    body.tracked id = true := by
  obtain ⟨node, hnode, rfl⟩ := Option.map_eq_some_iff.mp hid
  exact tracked_iff.mpr ⟨node, hnode, htracked⟩

theorem evaluate_of_instruction? {body : Body} {id : Nat} {instruction : Instruction}
    (hid : body.instruction? id = some instruction) (store : Store Interval) :
    body.evaluate id store = instruction.transfer store := by
  obtain ⟨node, hnode, rfl⟩ := Option.map_eq_some_iff.mp hid
  exact evaluate_of_node? hnode store

section Membership

variable {body : Body} {store : Store Interval} {id : Nat} {value : Int}

theorem Solution.get?_untracked (hstore : body.Solution store) (hid : body.tracked id = false) :
    store.get? id = none := by
  have hnone := hstore.isSome_get? id
  rwa [hid, Option.isSome_eq_false_iff, Option.isNone_iff_eq_none] at hnone

/-- What a tracked instruction computes from its operands lies within its interval. -/
theorem Solution.exists_mem (hstore : body.Solution store) {instruction : Instruction}
    (hid : body.instruction? id = some instruction) (htracked : instruction.tracked = true)
    (hvalue : ∀ interval, instruction.transfer store = .ok interval → value ∈ interval) :
    ∃ interval, store.get? id = some interval ∧ value ∈ interval := by
  obtain ⟨stored, interval, hstored, hinterval, hle⟩ :=
    hstore.evaluate_le id (tracked_of_instruction? hid htracked)
  obtain ⟨node, hnode, hnodeInstruction⟩ := Option.map_eq_some_iff.mp hid
  obtain ⟨found, hfound, htransfer⟩ := evaluate_eq_ok_iff.mp hinterval
  rw [hnode] at hfound
  rw [← Option.some.inj hfound, hnodeInstruction] at htransfer
  exact ⟨stored, hstored, Interval.mem_of_le hle (hvalue interval htransfer)⟩

mutual

theorem Denotes.mem_interval (hstore : body.Solution store) {operand : Value} {value : Int} :
    body.Denotes operand value → value ∈ operand.interval store
  | .integer bits value ty => Interval.mem_constant value
  | @Denotes.constant _ constant hconstant ty value => by
      cases constant with
      | int bits value => exact absurd rfl (hconstant bits value)
      | _ => exact Interval.mem_full value
  | .argument index ty value => Interval.mem_full value
  | .untracked hid ty value => by
      rw [Value.interval, hstore.get?_untracked hid]
      exact Interval.mem_full value
  | .tracked hvalue ty => by
      obtain ⟨interval, hinterval, hmem⟩ := Collects.exists_mem hstore hvalue
      rw [Value.interval, hinterval]
      exact hmem

theorem Collects.exists_mem (hstore : body.Solution store) {id : Nat} {value : Int} :
    body.Collects id value → ∃ interval, store.get? id = some interval ∧ value ∈ interval
  | .phi hid hedge hvalue => hstore.exists_mem hid rfl fun interval hinterval => by
      cases hinterval
      exact Interval.mem_of_le (Interval.le_foldl_lub (List.mem_map.mpr ⟨_, hedge, rfl⟩))
        (Denotes.mem_interval hstore hvalue)
  | .selectThen hid hvalue => hstore.exists_mem hid rfl fun interval hinterval => by
      cases hinterval
      exact Interval.mem_of_le le_sup_left (Denotes.mem_interval hstore hvalue)
  | .selectElse hid hvalue => hstore.exists_mem hid rfl fun interval hinterval => by
      cases hinterval
      exact Interval.mem_of_le le_sup_right (Denotes.mem_interval hstore hvalue)
  | .add hid hx hy => hstore.exists_mem hid rfl fun interval hinterval => by
      cases hinterval
      exact Interval.add_mem_add (Denotes.mem_interval hstore hx) (Denotes.mem_interval hstore hy)
  | .sub hid hx hy => hstore.exists_mem hid rfl fun interval hinterval => by
      cases hinterval
      exact Interval.sub_mem_sub (Denotes.mem_interval hstore hx) (Denotes.mem_interval hstore hy)
  | .mul hid value => hstore.exists_mem hid rfl fun interval hinterval => by
      cases hinterval
      exact Interval.mem_full value
  | .sdiv hid value => hstore.exists_mem hid rfl fun interval hinterval => by
      cases hinterval
      exact Interval.mem_full value
  | .compare hid hvalue => hstore.exists_mem hid rfl fun interval hinterval => by
      rw [Predicate.eq_unit_of_apply hinterval]
      exact Interval.mem_unit hvalue
  | .alloca hid value => hstore.exists_mem hid rfl fun interval hinterval => by
      cases hinterval
      exact Interval.mem_full value
  | .load hid value => hstore.exists_mem hid rfl fun interval hinterval => by
      cases hinterval
      exact Interval.mem_full value
  | .call hid value => hstore.exists_mem hid rfl fun interval hinterval => by
      cases hinterval
      exact Interval.mem_full value

end

end Membership

/-- Every integer that an instruction may take lies in its final interval, whatever the options. -/
theorem mem_ranges_of_collects {document : Document.Function} {function : Function} {body : Body}
    {options : Options} {fuel : Nat} {ranges : Ranges} {id : Nat} {value : Int}
    (hfunction : Function.ofDocument document = .ok function)
    (hbody : function.body = some body)
    (hranges : function.ranges? fuel options = some (.ok ranges))
    (hvalue : body.Collects id value) :
    ∃ interval, ranges.store.get? id = some interval ∧ value ∈ interval := by
  have hexact := Function.usesExact_of_ofDocument hfunction hbody
  exact hvalue.exists_mem (solution_of_ranges? hexact hbody hranges)

/-- The counter of the counting loop is two after two rounds. -/
theorem countingBody_collects_two : countingBody.Collects 1 2 := by
  have hzero : countingBody.Collects 0 0 :=
    .phi rfl List.mem_cons_self (.integer 32 0 (.int 32))
  have hone : countingBody.Collects 1 1 :=
    .add rfl (.tracked hzero (.int 32)) (.integer 32 1 (.int 32))
  have hcarried : countingBody.Collects 0 1 :=
    .phi rfl (List.mem_cons_of_mem _ List.mem_cons_self) (.tracked hone (.int 32))
  exact .add rfl (.tracked hcarried (.int 32)) (.integer 32 1 (.int 32))

theorem countingLoop_mem_ranges :
    Function.ofDocument countingLoop = .ok countingFunction ∧
      countingFunction.body = some countingBody ∧
      countingFunction.ranges? 20 .default = some (.ok countingRanges) ∧
      countingBody.Collects 1 2 ∧
      ∃ interval, countingRanges.store.get? 1 = some interval ∧ 2 ∈ interval :=
  ⟨ofDocument_countingLoop, rfl, ranges?_countingFunction, countingBody_collects_two,
    mem_ranges_of_collects ofDocument_countingLoop rfl ranges?_countingFunction
      countingBody_collects_two⟩

end Body

end ValueRange

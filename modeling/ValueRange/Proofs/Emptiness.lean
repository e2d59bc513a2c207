import ValueRange.Proofs.Convergence
import ValueRange.Proofs.Soundness

/-!
# Empty intervals

Every tracked instruction starts with the empty interval, and the ones that never get a value keep
it. No operation makes the empty interval out of intervals with values, neither by an overflow nor by
widening. So an interval that has got values keeps some, even if it shrinks. In the end exactly the
instructions are empty that cannot be reached from constants, arguments and the results that are not
constrained, whatever the options are.
-/

namespace ValueRange

namespace Interval

variable {left right current previous : Interval}

theorem le_empty_iff {interval : Interval} : interval ≤ empty ↔ interval = empty :=
  ⟨fun hle => le_antisymm hle (empty_le _), fun heq => heq.le⟩

theorem lub_eq_empty_iff : left.lub right = empty ↔ left = empty ∧ right = empty := by
  rw [← le_empty_iff, lub_le_iff, le_empty_iff, le_empty_iff]

theorem foldl_lub_eq_empty_iff {intervals : List Interval} :
    intervals.foldl lub empty = empty ↔ ∀ interval ∈ intervals, interval = empty := by
  rw [← le_empty_iff, foldl_lub_le_iff, and_iff_right (le_refl _)]
  simp only [le_empty_iff]

theorem empty_add (interval : Interval) : empty.add interval = empty := rfl

theorem add_empty (interval : Interval) : interval.add empty = empty :=
  Interval.ext (Bound.addLower_posInf _) (Bound.addUpper_negInf _)

theorem empty_sub (interval : Interval) : empty.sub interval = empty := rfl

theorem sub_empty (interval : Interval) : interval.sub empty = empty := add_empty interval

/-- A sum of intervals with values has values, also if it overflows. -/
theorem WellFormed.add_eq_empty_iff (hleft : left.WellFormed) (hright : right.WellFormed) :
    left.add right = empty ↔ left = empty ∨ right = empty := by
  constructor
  · intro hsum
    rcases hleft with hleft | ⟨_, hleftLower, _⟩
    · exact Or.inl hleft
    rcases hright with hright | ⟨_, hrightLower, _⟩
    · exact Or.inr hright
    · have hlower : left.lower.addLower right.lower = .posInf := congrArg lower hsum
      exact absurd hlower (Bound.addLower_ne_posInf hleftLower hrightLower)
  · rintro (rfl | rfl)
    · exact empty_add right
    · exact add_empty left

theorem WellFormed.neg_eq_empty_iff {interval : Interval} (hinterval : interval.WellFormed) :
    interval.neg = empty ↔ interval = empty := by
  constructor
  · intro hneg
    rcases hinterval with hempty | ⟨hends, hlower, hupper⟩
    · exact hempty
    · rw [WellFormed.neg_eq (Or.inr ⟨hends, hlower, hupper⟩)] at hneg
      exact absurd (congrArg Interval.lower hneg) (Bound.negLower_ne_posInf hupper)
  · rintro rfl
    rfl

theorem WellFormed.sub_eq_empty_iff (hleft : left.WellFormed) (hright : right.WellFormed) :
    left.sub right = empty ↔ left = empty ∨ right = empty := by
  rw [Interval.sub, hleft.add_eq_empty_iff hright.neg, hright.neg_eq_empty_iff]

theorem widen_eq_empty_iff : current.widen previous = empty ↔ current = empty := by
  constructor
  · intro hwiden
    exact le_empty_iff.mp (hwiden ▸ le_widen current previous)
  · rintro rfl
    exact empty_widen previous

end Interval

theorem State.revised_eq_empty_iff {state : State} {options : Options} {id : Nat}
    {value : Interval} : state.revised options id value = .empty ↔ value = .empty := by
  unfold revised
  split
  · exact Interval.widen_eq_empty_iff
  · exact Iff.rfl

/-- Only the result of another instruction can be an empty operand. -/
theorem Value.interval_eq_empty_iff {value : Value} {store : Store Interval} :
    value.interval store = .empty ↔
      ∃ id, value.register? = some id ∧ store.get? id = some .empty := by
  have hfull : Interval.full ≠ .empty := by decide
  cases value with
  | constant constant ty =>
      cases constant with
      | int bits value => simp [interval, register?, Interval.constant, Interval.empty]
      | _ => simp [interval, register?, hfull]
  | argument index ty => simp [interval, register?, hfull]
  | register id ty =>
      simp only [interval, register?, Option.some.injEq, exists_eq_left']
      cases store.get? id <;> simp [hfull]

namespace Instruction

variable {left right store : Store Interval} {instruction : Instruction} {value : Interval}

theorem tracked_of_transfer (hvalue : instruction.transfer store = .ok value) :
    instruction.tracked = true := by
  cases instruction with
  | cast opcode operand => cases hvalue
  | store pointeeType pointer value => cases hvalue
  | other opcode operands => cases hvalue
  | _ => rfl

/-- If an instruction is empty under a store, it is so under every store that has at least the same
empty intervals. -/
theorem transfer_eq_empty_of_empty (hright : right.WellFormed)
    (hempty : ∀ id, right.get? id = some .empty → left.get? id = some .empty)
    (hvalue : instruction.transfer right = .ok .empty) :
    instruction.transfer left = .ok .empty := by
  have hoperand : ∀ operand : Value, operand.interval right = .empty →
      operand.interval left = .empty := by
    intro operand hoperand
    obtain ⟨id, hid, hget⟩ := Value.interval_eq_empty_iff.mp hoperand
    exact Value.interval_eq_empty_iff.mpr ⟨id, hid, hempty id hget⟩
  cases instruction with
  | phi incoming =>
      have hall := Interval.foldl_lub_eq_empty_iff.mp (Except.ok.inj hvalue)
      refine congrArg Except.ok (Interval.foldl_lub_eq_empty_iff.mpr fun interval hinterval => ?_)
      obtain ⟨edge, hedge, rfl⟩ := List.mem_map.mp hinterval
      exact hoperand edge.1 (hall _ (List.mem_map.mpr ⟨edge, hedge, rfl⟩))
  | select cond thenValue elseValue =>
      obtain ⟨hthen, helse⟩ := Interval.lub_eq_empty_iff.mp (Except.ok.inj hvalue)
      exact congrArg Except.ok
        (Interval.lub_eq_empty_iff.mpr ⟨hoperand thenValue hthen, hoperand elseValue helse⟩)
  | binary opcode lhs rhs =>
      have hlhs := lhs.wellFormed_interval hright
      have hrhs := rhs.wellFormed_interval hright
      rw [transfer, BinaryOp.apply_eq_ok_iff] at hvalue ⊢
      rcases hvalue with ⟨hopcode, hsum⟩ | ⟨hopcode, hdifference⟩ | ⟨_, hfull⟩
      · refine Or.inl ⟨hopcode, ?_⟩
        rcases (hlhs.add_eq_empty_iff hrhs).mp hsum.symm with hside | hside
        · rw [hoperand lhs hside, Interval.empty_add]
        · rw [hoperand rhs hside, Interval.add_empty]
      · refine Or.inr (Or.inl ⟨hopcode, ?_⟩)
        rcases (hlhs.sub_eq_empty_iff hrhs).mp hdifference.symm with hside | hside
        · rw [hoperand lhs hside, Interval.empty_sub]
        · rw [hoperand rhs hside, Interval.sub_empty]
      · exact absurd hfull (by decide)
  | compare predicate lhs rhs =>
      exact absurd (Predicate.eq_unit_of_apply hvalue) (by decide)
  | cast opcode operand => cases hvalue
  | store pointeeType pointer value => cases hvalue
  | other opcode operands => cases hvalue
  | _ => exact absurd (Except.ok.inj hvalue) (by decide)

end Instruction

namespace Body

/-! ## Intervals that have got values keep some -/

/-- No evaluation takes the last value out of an interval. -/
def NeverEmpties (body : Body) (store : Store Interval) : Prop :=
  ∀ id, body.evaluate id store = .ok .empty → store.get? id = some .empty

section Persistence

variable {body : Body} {options : Options} {before after start state : State} {id other : Nat}
  {value : Interval}

theorem tracked_of_evaluate {store : Store Interval} (hvalue : body.evaluate id store = .ok value) :
    body.tracked id = true := by
  obtain ⟨node, hnode, hvalue⟩ := evaluate_eq_ok_iff.mp hvalue
  exact tracked_iff.mpr ⟨node, hnode, Instruction.tracked_of_transfer hvalue⟩

theorem neverEmpties_initial (body : Body) (options : Options) :
    body.NeverEmpties (body.initial options).store := by
  intro id hvalue
  rw [get?_initial, if_pos (tracked_of_evaluate hvalue)]

/-- What is empty after an evaluation was empty before it. -/
theorem Evaluation.empty_before (hevaluation : body.Evaluation options before id value after)
    (hbefore : body.Consistent before) (hnever : body.NeverEmpties before.store)
    (hother : after.store.get? other = some .empty) : before.store.get? other = some .empty := by
  rw [hevaluation.get?_after hbefore] at hother
  split at hother
  · rename_i heq
    have hvalue := State.revised_eq_empty_iff.mp (Option.some.inj hother)
    rw [heq]
    exact hnever id (hvalue ▸ hevaluation.evaluate)
  · exact hother

theorem Evaluation.neverEmpties (hevaluation : body.Evaluation options before id value after)
    (hbefore : body.Consistent before) (hnever : body.NeverEmpties before.store) :
    body.NeverEmpties after.store := by
  intro other hother
  -- An instruction that is empty now was empty under the intervals before, which had no more values.
  have hearlier : body.evaluate other before.store = .ok .empty := by
    obtain ⟨node, hnode, hvalue⟩ := evaluate_eq_ok_iff.mp hother
    exact evaluate_eq_ok_iff.mpr ⟨node, hnode, Instruction.transfer_eq_empty_of_empty
      (hevaluation.consistent hbefore).wellFormed
      (fun _ => hevaluation.empty_before hbefore hnever) hvalue⟩
  rw [hevaluation.get?_after hbefore]
  split
  · rename_i heq
    subst heq
    have hvalue : value = .empty :=
      Except.ok.inj (hevaluation.evaluate.symm.trans hearlier)
    rw [State.revised_eq_empty_iff.mpr hvalue]
  · exact hnever other hearlier

theorem Reaches.neverEmpties (hreach : body.Reaches options (body.initial options) state) :
    body.NeverEmpties state.store := by
  refine hreach.invariant (fun state => body.NeverEmpties state.store)
    (neverEmpties_initial body options) ?_
  intro before id value after hbefore hevaluation
  exact hevaluation.neverEmpties (hbefore.consistent (consistent_initial body options))

/-- What is empty in a state of a run was empty in all states before. -/
theorem Reaches.empty_before (hstart : body.Reaches options (body.initial options) start)
    (hreach : body.Reaches options start state) (hid : state.store.get? id = some .empty) :
    start.store.get? id = some .empty := by
  refine hreach.invariant
    (fun state => state.store.get? id = some .empty → start.store.get? id = some .empty)
    (fun hstart => hstart) ?_ hid
  intro before evaluated value after hbefore hevaluation hsame hafter
  have hway := Relation.ReflTransGen.trans hstart hbefore
  exact hsame (hevaluation.empty_before (Reaches.consistent hway (consistent_initial body options))
    (Reaches.neverEmpties hway) hafter)

end Persistence

/-- In every state of a run exactly the tracked instructions have an interval, every interval has the
agreed shape, and an interval with values has values in all later states. -/
theorem shape_throughout {body : Body} {options : Options} {state : State}
    (hreach : body.Reaches options (body.initial options) state) :
    (∀ id, (∃ interval, state.store.get? id = some interval) ↔
      ∃ node, body.node? id = some node ∧ node.instruction.tracked = true) ∧
    (∀ id interval, state.store.get? id = some interval → interval.WellFormed) ∧
    ∀ later, body.Reaches options state later →
      ∀ id interval, state.store.get? id = some interval → interval ≠ .empty →
        ∃ interval', later.store.get? id = some interval' ∧ interval' ≠ .empty := by
  have hinitial := consistent_initial body options
  have hstate := hreach.consistent hinitial
  refine ⟨fun id => ?_, hstate.wellFormed, ?_⟩
  · rw [← Option.isSome_iff_exists, hstate.isSome_get?, tracked_iff]
  · intro later hlater id interval hinterval hvalues
    have htracked : body.tracked id = true := by
      rw [← hstate.isSome_get?, hinterval, Option.isSome_some]
    refine ⟨_, (hlater.consistent hstate).get?_eq_some htracked, fun hempty => ?_⟩
    have hid := (hlater.consistent hstate).get?_eq_some htracked
    rw [hempty] at hid
    rw [Reaches.empty_before hreach hlater hid] at hinterval
    exact hvalues (Option.some.inj hinterval).symm

/-- In the restless loop `b` has all values after twenty evaluations and fewer after the next one, but
it never loses all of them. -/
theorem restlessLoop_keeps_values :
    ∃ state, restlessBody.after? .default 20 (restlessBody.initial .default) = some state ∧
      (∀ id interval, state.store.get? id = some interval → interval.WellFormed) ∧
      state.store.get? 1 = some .full ∧
      ∀ later, restlessBody.Reaches .default state later →
        ∃ interval, later.store.get? 1 = some interval ∧ interval ≠ .empty := by
  obtain ⟨state, hstate, hfull⟩ : ∃ state,
      restlessBody.after? .default 20 (restlessBody.initial .default) = some state ∧
        state.store.get? 1 = some .full := ⟨_, rfl, rfl⟩
  obtain ⟨_, hshape, hkeeps⟩ := shape_throughout (reaches_of_after? hstate)
  exact ⟨state, hstate, hshape, hfull, fun later hlater =>
    hkeeps later hlater 1 .full hfull (by decide)⟩

/-! ## Grounded instructions -/

mutual

/-- An operand from which a value can come. -/
inductive GroundedOperand (body : Body) : Value → Prop
  | constant (value : Constant) (ty : Ty) : GroundedOperand body (.constant value ty)
  | argument (index : Nat) (ty : Ty) : GroundedOperand body (.argument index ty)
  | untracked {id : Nat} (hid : body.tracked id = false) (ty : Ty) :
      GroundedOperand body (.register id ty)
  | tracked {id : Nat} (hid : Grounded body id) (ty : Ty) : GroundedOperand body (.register id ty)

/-- A tracked instruction that a value can get to from its operands, or that has values of its
own. -/
inductive Grounded (body : Body) : Nat → Prop
  | phi {id : Nat} {incoming : List (Value × UInt64)} {edge : Value × UInt64}
      (hid : body.instruction? id = some (.phi incoming)) (hedge : edge ∈ incoming)
      (hvalue : GroundedOperand body edge.1) : Grounded body id
  | selectThen {id : Nat} {cond thenValue elseValue : Value}
      (hid : body.instruction? id = some (.select cond thenValue elseValue))
      (hvalue : GroundedOperand body thenValue) : Grounded body id
  | selectElse {id : Nat} {cond thenValue elseValue : Value}
      (hid : body.instruction? id = some (.select cond thenValue elseValue))
      (hvalue : GroundedOperand body elseValue) : Grounded body id
  | add {id : Nat} {lhs rhs : Value} (hid : body.instruction? id = some (.binary .add lhs rhs))
      (hlhs : GroundedOperand body lhs) (hrhs : GroundedOperand body rhs) : Grounded body id
  | sub {id : Nat} {lhs rhs : Value} (hid : body.instruction? id = some (.binary .sub lhs rhs))
      (hlhs : GroundedOperand body lhs) (hrhs : GroundedOperand body rhs) : Grounded body id
  | mul {id : Nat} {lhs rhs : Value} (hid : body.instruction? id = some (.binary .mul lhs rhs)) :
      Grounded body id
  | sdiv {id : Nat} {lhs rhs : Value} (hid : body.instruction? id = some (.binary .sdiv lhs rhs)) :
      Grounded body id
  | compare {id : Nat} {predicate : Predicate} {lhs rhs : Value}
      (hid : body.instruction? id = some (.compare predicate lhs rhs)) : Grounded body id
  | alloca {id : Nat} {allocatedType : Ty} {size : Option Value}
      (hid : body.instruction? id = some (.alloca allocatedType size)) : Grounded body id
  | load {id : Nat} {pointeeType : Ty} {pointer : Value}
      (hid : body.instruction? id = some (.load pointeeType pointer)) : Grounded body id
  | call {id : Nat} {callee : Value} {args : List Value}
      (hid : body.instruction? id = some (.call callee args)) : Grounded body id

end

section Groundedness

variable {body : Body} {options : Options} {before after state : State} {store : Store Interval}
  {id : Nat} {value : Interval}

mutual

theorem GroundedOperand.exists_denotes {operand : Value} :
    body.GroundedOperand operand → ∃ value, body.Denotes operand value
  | .constant constant ty => by
      cases constant with
      | int bits value => exact ⟨_, .integer bits value ty⟩
      | _ => exact ⟨0, .constant (by simp) ty 0⟩
  | .argument index ty => ⟨0, .argument index ty 0⟩
  | .untracked hid ty => ⟨0, .untracked hid ty 0⟩
  | .tracked hid ty => by
      obtain ⟨value, hvalue⟩ := Grounded.exists_collects hid
      exact ⟨value, .tracked hvalue ty⟩

/-- A grounded instruction takes some integer in the collecting semantics. -/
theorem Grounded.exists_collects {id : Nat} :
    body.Grounded id → ∃ value, body.Collects id value
  | .phi hid hedge hvalue => by
      obtain ⟨value, hvalue⟩ := GroundedOperand.exists_denotes hvalue
      exact ⟨value, .phi hid hedge hvalue⟩
  | .selectThen hid hvalue => by
      obtain ⟨value, hvalue⟩ := GroundedOperand.exists_denotes hvalue
      exact ⟨value, .selectThen hid hvalue⟩
  | .selectElse hid hvalue => by
      obtain ⟨value, hvalue⟩ := GroundedOperand.exists_denotes hvalue
      exact ⟨value, .selectElse hid hvalue⟩
  | .add hid hlhs hrhs => by
      obtain ⟨x, hx⟩ := GroundedOperand.exists_denotes hlhs
      obtain ⟨y, hy⟩ := GroundedOperand.exists_denotes hrhs
      exact ⟨x + y, .add hid hx hy⟩
  | .sub hid hlhs hrhs => by
      obtain ⟨x, hx⟩ := GroundedOperand.exists_denotes hlhs
      obtain ⟨y, hy⟩ := GroundedOperand.exists_denotes hrhs
      exact ⟨x - y, .sub hid hx hy⟩
  | .mul hid => ⟨0, .mul hid 0⟩
  | .sdiv hid => ⟨0, .sdiv hid 0⟩
  | .compare hid => ⟨0, .compare hid (Or.inl rfl)⟩
  | .alloca hid => ⟨0, .alloca hid 0⟩
  | .load hid => ⟨0, .load hid 0⟩
  | .call hid => ⟨0, .call hid 0⟩

end

/-- An instruction that evaluates to an interval with values is grounded if all operands with values
are. -/
theorem grounded_of_evaluate (hvalue : body.evaluate id store = .ok value) (hne : value ≠ .empty)
    (hoperands : ∀ operand : Value, operand.interval store ≠ .empty →
      body.GroundedOperand operand) : body.Grounded id := by
  obtain ⟨node, hnode, hvalue⟩ := evaluate_eq_ok_iff.mp hvalue
  have hid : body.instruction? id = some node.instruction := by
    rw [instruction?, hnode, Option.map_some]
  generalize node.instruction = instruction at hid hvalue
  cases instruction with
  | phi incoming =>
      cases hvalue
      rw [ne_eq, Interval.foldl_lub_eq_empty_iff] at hne
      simp only [Instruction.incomingIntervals, List.forall_mem_map, not_forall] at hne
      obtain ⟨edge, hedge, hedgeValue⟩ := hne
      exact .phi hid hedge (hoperands edge.1 hedgeValue)
  | select cond thenValue elseValue =>
      cases hvalue
      rw [ne_eq, Interval.lub_eq_empty_iff, not_and_or] at hne
      rcases hne with hthen | helse
      · exact .selectThen hid (hoperands thenValue hthen)
      · exact .selectElse hid (hoperands elseValue helse)
  | binary opcode lhs rhs =>
      rcases BinaryOp.apply_eq_ok_iff.mp hvalue with ⟨rfl, rfl⟩ | ⟨rfl, rfl⟩ | ⟨rfl | rfl, _⟩
      · refine .add hid (hoperands lhs fun hempty => ?_) (hoperands rhs fun hempty => ?_)
        · exact hne (by rw [hempty, Interval.empty_add])
        · exact hne (by rw [hempty, Interval.add_empty])
      · refine .sub hid (hoperands lhs fun hempty => ?_) (hoperands rhs fun hempty => ?_)
        · exact hne (by rw [hempty, Interval.empty_sub])
        · exact hne (by rw [hempty, Interval.sub_empty])
      · exact .mul hid
      · exact .sdiv hid
  | compare predicate lhs rhs => exact .compare hid
  | alloca allocatedType size => exact .alloca hid
  | load pointeeType pointer => exact .load hid
  | call callee args => exact .call hid
  | cast opcode operand => cases hvalue
  | store pointeeType pointer value => cases hvalue
  | other opcode operands => cases hvalue

/-- The intervals with values belong to grounded instructions. -/
def OnlyGrounded (body : Body) (store : Store Interval) : Prop :=
  ∀ id interval, store.get? id = some interval → interval ≠ .empty → body.Grounded id

theorem Consistent.groundedOperand (hstate : body.Consistent state)
    (hgrounded : body.OnlyGrounded state.store) {operand : Value}
    (hoperand : operand.interval state.store ≠ .empty) : body.GroundedOperand operand := by
  cases operand with
  | constant constant ty => exact .constant constant ty
  | argument index ty => exact .argument index ty
  | register id ty =>
      rw [Value.interval] at hoperand
      cases hget : state.store.get? id with
      | none =>
          refine .untracked ?_ ty
          rw [← hstate.isSome_get?, hget, Option.isSome_none]
      | some interval =>
          rw [hget, Option.getD_some] at hoperand
          exact .tracked (hgrounded id interval hget hoperand) ty

theorem Evaluation.onlyGrounded (hevaluation : body.Evaluation options before id value after)
    (hbefore : body.Consistent before) (hgrounded : body.OnlyGrounded before.store) :
    body.OnlyGrounded after.store := by
  intro other interval hinterval hne
  rw [hevaluation.get?_after hbefore] at hinterval
  split at hinterval
  · rename_i hother
    rw [← Option.some.inj hinterval, ne_eq, State.revised_eq_empty_iff] at hne
    rw [hother]
    exact grounded_of_evaluate hevaluation.evaluate hne fun operand =>
      hbefore.groundedOperand hgrounded
  · exact hgrounded other interval hinterval hne

theorem Reaches.onlyGrounded (hreach : body.Reaches options (body.initial options) state) :
    body.OnlyGrounded state.store := by
  refine hreach.invariant (fun state => body.OnlyGrounded state.store) ?_ ?_
  · intro id interval hinterval hne
    rw [get?_initial] at hinterval
    split at hinterval
    · exact absurd (Option.some.inj hinterval).symm hne
    · cases hinterval
  · intro before id value after hbefore hevaluation
    exact hevaluation.onlyGrounded (hbefore.consistent (consistent_initial body options))

/-- In a solution, grounded instructions have values. -/
theorem Grounded.get?_ne_empty (hgrounded : body.Grounded id) (hstore : body.Solution store) :
    store.get? id ≠ some .empty := by
  obtain ⟨value, hvalue⟩ := hgrounded.exists_collects
  obtain ⟨interval, hinterval, hmem⟩ := hvalue.exists_mem hstore
  rw [hinterval]
  rintro ⟨rfl⟩
  exact hmem.1

theorem ranges_empty_iff {function : Function} {fuel : Nat} {ranges : Ranges}
    (hexact : body.UsesExact) (hbody : function.body = some body)
    (hranges : function.ranges? fuel options = some (.ok ranges))
    (htracked : body.tracked id = true) :
    ranges.store.get? id = some .empty ↔ ¬ body.Grounded id := by
  have hsolution := solution_of_ranges? hexact hbody hranges
  constructor
  · intro hempty hgrounded
    exact hgrounded.get?_ne_empty hsolution hempty
  · intro hgrounded
    obtain ⟨stored, _, hstored, _⟩ := hsolution.evaluate_le id htracked
    obtain ⟨final, hreach, _, hstore⟩ := Function.exists_final_of_ranges? hbody hranges
    by_contra hne
    rw [hstore] at hstored hne
    exact hgrounded (Reaches.onlyGrounded hreach id stored hstored fun heq => hne (heq ▸ hstored))

end Groundedness

/-- The final interval of a tracked instruction is empty if and only if the instruction is not
grounded. So whether it is empty does not depend on the options. -/
theorem empty_iff_not_grounded {document : Document.Function} {function : Function} {body : Body}
    (hfunction : Function.ofDocument document = .ok function) (hbody : function.body = some body)
    {id : Nat} (htracked : body.tracked id = true) :
    (∀ options fuel ranges, function.ranges? fuel options = some (.ok ranges) →
      (ranges.store.get? id = some .empty ↔ ¬ body.Grounded id)) ∧
    ∀ options fuel ranges, function.ranges? fuel options = some (.ok ranges) →
      ∀ options' fuel' ranges', function.ranges? fuel' options' = some (.ok ranges') →
        (ranges.store.get? id = some .empty ↔ ranges'.store.get? id = some .empty) := by
  have hexact := Function.usesExact_of_ofDocument hfunction hbody
  constructor
  · intro options fuel ranges hranges
    exact ranges_empty_iff hexact hbody hranges htracked
  · intro options fuel ranges hranges options' fuel' ranges' hranges'
    rw [ranges_empty_iff hexact hbody hranges htracked,
      ranges_empty_iff hexact hbody hranges' htracked]

open Document in
/-- A loop that nothing enters, `a = phi [b]` and `b = add a, 1`, with a test `c = icmp slt b, 9` and a
choice `d = select c, b, 5` in it. -/
def idleLoop : Document.Function :=
  let ty : TypeExpr := .int 32
  let number (value : String) : Operand := .constant ⟨ty, .int value⟩
  { name := "idle"
    params := []
    ret := .void
    blocks :=
      [⟨0, none, [], ⟨.void, 0, none, .ret none⟩⟩,
        ⟨1, none,
          [⟨ty, 1, some "a", .phi [⟨.instruction ty 2, 1⟩]⟩,
            ⟨ty, 2, some "b", .binary "add" (.instruction ty 1) (number "1")⟩,
            ⟨.int 1, 3, some "c", .compare "slt" (.instruction ty 2) (number "9")⟩,
            ⟨ty, 4, some "d",
              .select (.instruction (.int 1) 3) (.instruction ty 2) (number "5")⟩],
          ⟨.void, 5, none, .goto 1⟩⟩] }

/-- The checked body of the idle loop. -/
def idleBody : Body :=
  let ty : Ty := .int 32
  let number (value : Int64) : Value := .constant (.int 32 value) ty
  { blocks := [⟨0, none, [], .ret none⟩, ⟨1, none, [0, 1, 2, 3], .goto 1⟩]
    nodes :=
      #[⟨1, some "a", ty, .phi [(.register 1 ty, 1)]⟩,
        ⟨2, some "b", ty, .binary .add (.register 0 ty) (number 1)⟩,
        ⟨3, some "c", .bool, .compare .slt (.register 1 ty) (number 9)⟩,
        ⟨4, some "d", ty, .select (.register 2 .bool) (.register 1 ty) (number 5)⟩]
    uses := ⟨#[[1], [3, 2, 0], [3], []]⟩ }

/-- The checked idle loop. -/
def idleFunction : Function := ⟨"idle", [], .void, some idleBody⟩

/-- The ranges of the idle loop. -/
def idleRanges : Ranges :=
  ⟨⟨[(0, .empty), (1, .empty), (2, .unit), (3, .constant 5)], by decide⟩, 4, []⟩

/-- The loop variable of the idle loop is not grounded and stays empty, the choice is grounded. -/
theorem idleLoop_empty_and_grounded :
    Function.ofDocument idleLoop = .ok idleFunction ∧ idleFunction.body = some idleBody ∧
      idleFunction.ranges? 20 .default = some (.ok idleRanges) ∧
      idleBody.tracked 1 = true ∧ idleRanges.store.get? 1 = some .empty ∧
      ¬ idleBody.Grounded 1 ∧
      idleBody.tracked 3 = true ∧ idleBody.Grounded 3 ∧
      ∀ options fuel ranges, idleFunction.ranges? fuel options = some (.ok ranges) →
        ranges.store.get? 3 ≠ some .empty := by
  have hfunction : Function.ofDocument idleLoop = .ok idleFunction := rfl
  have hranges : idleFunction.ranges? 20 .default = some (.ok idleRanges) := rfl
  have hchoice : idleBody.Grounded 3 := .selectElse rfl (.constant _ _)
  refine ⟨hfunction, rfl, hranges, rfl, rfl, ?_, rfl, hchoice, ?_⟩
  · exact ((@empty_iff_not_grounded _ _ idleBody hfunction rfl 1 rfl).1 _ _ _ hranges).mp rfl
  · intro options fuel ranges hranges hempty
    exact ((@empty_iff_not_grounded _ _ idleBody hfunction rfl 3 rfl).1 _ _ _ hranges).mp hempty
      hchoice

end Body

end ValueRange

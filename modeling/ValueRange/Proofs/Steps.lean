import Mathlib.Logic.Relation
import ValueRange.Analysis.Fixpoint
import ValueRange.Proofs.DefUse
import ValueRange.Proofs.Queue
import ValueRange.Proofs.TransferLaws

/-!
# Steps of the fixpoint iteration

One evaluation leads from a state to the next one, and a run is a sequence of evaluations. All that
an evaluation can do is said once, in `Body.Evaluation`; the invariants of runs are derived from it.
The states of a run are consistent: the worklist is faithful and holds tracked instructions only,
exactly the tracked instructions have an interval, and every interval has the agreed shape.
-/

namespace ValueRange

namespace State

@[simp]
theorem record_store (state : State) (options : Options) (events : List Event) :
    (state.record options events).store = state.store := by
  unfold record
  split <;> rfl

@[simp]
theorem record_worklist (state : State) (options : Options) (events : List Event) :
    (state.record options events).worklist = state.worklist := by
  unfold record
  split <;> rfl

@[simp]
theorem record_visits (state : State) (options : Options) (events : List Event) :
    (state.record options events).visits = state.visits := by
  unfold record
  split <;> rfl

/-- The stored interval of an instruction. -/
def intervalOf (state : State) (id : Nat) : Interval := (state.store.get? id).getD .empty

/-- The interval that an evaluation with the given outcome leaves for an instruction. -/
def revised (state : State) (options : Options) (id : Nat) (value : Interval) : Interval :=
  if options.exceeded (state.visitsOf id + 1) && decide (value ≠ state.intervalOf id) then
    value.widen (state.intervalOf id)
  else
    value

theorem le_revised (state : State) (options : Options) (id : Nat) (value : Interval) :
    value ≤ state.revised options id value := by
  unfold revised
  split
  · exact Interval.le_widen _ _
  · exact le_refl _

theorem revised_of_widening_eq_none {options : Options} (hwidening : options.widening = none)
    (state : State) (id : Nat) (value : Interval) : state.revised options id value = value := by
  simp [revised, Options.exceeded, hwidening]

theorem wellFormed_revised {value : Interval} (hvalue : value.WellFormed) (state : State)
    (options : Options) (id : Nat) : (state.revised options id value).WellFormed := by
  unfold revised
  split
  · exact hvalue.widen _
  · exact hvalue

end State

namespace Body

/-- One evaluation leads from a state to another one. -/
def Step (body : Body) (options : Options) (before after : State) : Prop :=
  body.advance? options before = some (.ok after)

/-- Any number of evaluations lead from a state to another one. -/
def Reaches (body : Body) (options : Options) : State → State → Prop :=
  Relation.ReflTransGen (body.Step options)

/-- The effect of evaluating the instruction `id`, the next one in the queue, to `value`. -/
structure Evaluation (body : Body) (options : Options) (before : State) (id : Nat)
    (value : Interval) (after : State) : Prop where
  /-- The operands give the interval. -/
  evaluate : body.evaluate id before.store = .ok value
  /-- If the interval changes, every user is found. -/
  users_known : before.revised options id value ≠ before.intervalOf id → body.KnowsUsers id
  /-- The evaluation is counted. -/
  visits : after.visits = before.visits.insert id (before.visitsOf id + 1)
  /-- The instruction leaves the worklist. If its interval changes, the new one is stored, and the
  tracked users are queued. -/
  effect : ∃ rest, before.worklist.pop? = some (id, rest) ∧
    (before.revised options id value = before.intervalOf id ∧
        after.store = before.store ∧ after.worklist = rest ∨
      before.revised options id value ≠ before.intervalOf id ∧
        after.store = before.store.insert id (before.revised options id value) ∧
        after.worklist = rest.pushAll (body.trackedUsers id))

/-! ## What a step does -/

/-- What an evaluation to `value` records about itself. -/
def evaluationEvents (body : Body) (options : Options) (state : State) (id : Nat)
    (value : Interval) : List Event :=
  let widens := options.exceeded (state.visitsOf id + 1) && decide (value ≠ state.intervalOf id)
  let new := state.revised options id value
  body.transferEvents id state.store ++ (if widens then [.widened id new] else []) ++
    [.evaluated id (state.intervalOf id) new]

/-- The state after an instruction that has been taken off the worklist was evaluated to `value`. -/
def stateAfter (body : Body) (options : Options) (state : State) (id : Nat) (value : Interval) :
    State :=
  let counted := State.record { state with visits := state.visits.insert id (state.visitsOf id + 1) }
    options (body.evaluationEvents options state id value)
  if state.revised options id value = state.intervalOf id then
    counted
  else
    State.record
      { counted with
        store := state.store.insert id (state.revised options id value)
        worklist := state.worklist.pushAll (body.trackedUsers id) }
      options ((state.worklist.appended (body.trackedUsers id)).map Event.queued)

theorem visit_eq (body : Body) (options : Options) (state : State) (id : Nat) :
    body.visit options state id =
      (body.evaluate id state.store).bind fun value =>
        if state.revised options id value = state.intervalOf id then
          .ok (body.stateAfter options state id value)
        else
          (body.findTrackedUsers id).map fun _ => body.stateAfter options state id value := by
  cases hvalue : body.evaluate id state.store with
  | error fault =>
      simp only [visit, hvalue]
      rfl
  | ok value =>
      simp only [visit, hvalue, bind, Except.bind, pure, Except.pure, State.record_store,
        State.record_worklist]
      change (if state.revised options id value = state.intervalOf id then _ else _) = _
      split
      · rename_i hsame
        exact congrArg Except.ok (if_pos hsame).symm
      · rename_i hchanged
        cases husers : body.findTrackedUsers id with
        | error fault => rfl
        | ok users =>
            obtain ⟨_, rfl⟩ := findTrackedUsers_eq_ok_iff.mp husers
            exact congrArg Except.ok (if_neg hchanged).symm

section Inversion

variable {body : Body} {options : Options} {before after : State} {id : Nat} {rest : Worklist}
  {value : Interval}

theorem visit_of_knowsUsers (husers : body.KnowsUsers id) (options : Options) (state : State) :
    body.visit options state id =
      (body.evaluate id state.store).map (body.stateAfter options state id) := by
  rw [visit_eq, findTrackedUsers_eq_ok_iff.mpr ⟨husers, rfl⟩]
  cases body.evaluate id state.store with
  | error fault => rfl
  | ok value => exact ite_self _

theorem visit_eq_ok_iff :
    body.visit options before id = .ok after ↔
      ∃ value, body.evaluate id before.store = .ok value ∧
        (before.revised options id value ≠ before.intervalOf id → body.KnowsUsers id) ∧
        after = body.stateAfter options before id value := by
  rw [visit_eq]
  cases body.evaluate id before.store with
  | error fault => simp [Except.bind]
  | ok value =>
      simp only [Except.bind, Except.ok.injEq, exists_eq_left']
      split
      · rename_i hsame
        simp [hsame, eq_comm]
      · rename_i hchanged
        simp only [hchanged, not_false_eq_true, ne_eq, forall_const]
        cases husers : body.findTrackedUsers id with
        | error fault =>
            have hunknown : ¬ body.KnowsUsers id := by
              intro hknown
              have hfound := findTrackedUsers_eq_ok_iff.mpr ⟨hknown, rfl⟩
              rw [husers] at hfound
              cases hfound
            simp [Except.map, hunknown]
        | ok users =>
            have hknown := (findTrackedUsers_eq_ok_iff.mp husers).1
            simp [Except.map, hknown, eq_comm]

/-- A step takes the next instruction off the worklist and evaluates it. -/
theorem step_iff :
    body.Step options before after ↔
      ∃ id rest value, before.worklist.pop? = some (id, rest) ∧
        body.evaluate id before.store = .ok value ∧
        (before.revised options id value ≠ before.intervalOf id → body.KnowsUsers id) ∧
        after = body.stateAfter options { before with worklist := rest } id value := by
  unfold Step advance?
  cases hpop : before.worklist.pop? with
  | none => simp
  | some entry =>
      obtain ⟨id, rest⟩ := entry
      simp only [Option.some.injEq, visit_eq_ok_iff, Prod.mk.injEq]
      constructor
      · rintro ⟨value, hvalue⟩
        exact ⟨id, rest, value, ⟨rfl, rfl⟩, hvalue⟩
      · rintro ⟨_, _, value, ⟨rfl, rfl⟩, hvalue⟩
        exact ⟨value, hvalue⟩

theorem evaluation_stateAfter (hpop : before.worklist.pop? = some (id, rest))
    (hvalue : body.evaluate id before.store = .ok value)
    (husers : before.revised options id value ≠ before.intervalOf id → body.KnowsUsers id) :
    body.Evaluation options before id value
      (body.stateAfter options { before with worklist := rest } id value) := by
  by_cases hnew : before.revised options id value = before.intervalOf id
  · have hafter : body.stateAfter options { before with worklist := rest } id value =
        State.record _ options _ := if_pos hnew
    rw [hafter]
    exact ⟨hvalue, husers, State.record_visits _ _ _, rest, hpop,
      Or.inl ⟨hnew, State.record_store _ _ _, State.record_worklist _ _ _⟩⟩
  · have hafter : body.stateAfter options { before with worklist := rest } id value =
        State.record _ options _ := if_neg hnew
    rw [hafter]
    refine ⟨hvalue, husers, ?_, rest, hpop,
      Or.inr ⟨hnew, State.record_store _ _ _, State.record_worklist _ _ _⟩⟩
    rw [State.record_visits]
    exact State.record_visits _ _ _

/-- A step is the evaluation of the next instruction in the queue. -/
theorem Step.exists_evaluation (hstep : body.Step options before after) :
    ∃ id value, body.Evaluation options before id value after := by
  obtain ⟨id, rest, value, hpop, hvalue, husers, rfl⟩ := step_iff.mp hstep
  exact ⟨id, value, evaluation_stateAfter hpop hvalue husers⟩

/-- The next instruction in the queue is evaluated if its operands give an interval and, in case of a
change, its users are found. -/
theorem exists_step (options : Options) (hpop : before.worklist.pop? = some (id, rest))
    (hvalue : body.evaluate id before.store = .ok value)
    (husers : before.revised options id value ≠ before.intervalOf id → body.KnowsUsers id) :
    ∃ after, body.Step options before after ∧ body.Evaluation options before id value after :=
  ⟨_, step_iff.mpr ⟨id, rest, value, hpop, hvalue, husers, rfl⟩,
    evaluation_stateAfter hpop hvalue husers⟩

end Inversion

/-- What holds at the start of a run and survives every evaluation holds throughout. -/
theorem Reaches.invariant {body : Body} {options : Options} {start final : State}
    (hreach : body.Reaches options start final) (property : State → Prop)
    (hstart : property start)
    (hstep : ∀ before id value after, body.Reaches options start before →
      body.Evaluation options before id value after → property before → property after) :
    property final := by
  induction hreach with
  | refl => exact hstart
  | tail hbefore hlast ih =>
      obtain ⟨id, value, hevaluation⟩ := hlast.exists_evaluation
      exact hstep _ id value _ hbefore hevaluation ih

section Effect

variable {body : Body} {options : Options} {before after : State} {id : Nat} {value : Interval}

theorem Evaluation.store_after (hevaluation : body.Evaluation options before id value after) :
    after.store =
      if before.revised options id value = before.intervalOf id then before.store
      else before.store.insert id (before.revised options id value) := by
  obtain ⟨_, _, ⟨hnew, hstore, _⟩ | ⟨hnew, hstore, _⟩⟩ := hevaluation.effect
  · rw [if_pos hnew, hstore]
  · rw [if_neg hnew, hstore]

theorem Evaluation.worklist_after (hevaluation : body.Evaluation options before id value after)
    {rest : Worklist} (hpop : before.worklist.pop? = some (id, rest)) :
    after.worklist =
      if before.revised options id value = before.intervalOf id then rest
      else rest.pushAll (body.trackedUsers id) := by
  obtain ⟨rest', hpop', hcases⟩ := hevaluation.effect
  have hrest : rest' = rest := by
    rw [hpop] at hpop'
    exact (congrArg Prod.snd (Option.some.inj hpop')).symm
  subst hrest
  rcases hcases with ⟨hnew, _, hworklist⟩ | ⟨hnew, _, hworklist⟩
  · rw [if_pos hnew, hworklist]
  · rw [if_neg hnew, hworklist]

end Effect

/-! ## Consistent states -/

/-- What holds of the worklist and the store in every state of a run. -/
structure Consistent (body : Body) (state : State) : Prop where
  /-- The worklist is a duplicate-free queue. -/
  faithful : state.worklist.Faithful
  /-- Only tracked instructions are pending. -/
  pending_tracked : ∀ id ∈ state.worklist.toList, body.tracked id = true
  /-- Exactly the tracked instructions have an interval. -/
  isSome_get? : ∀ id, (state.store.get? id).isSome = body.tracked id
  /-- The intervals have the agreed shape. -/
  wellFormed : state.store.WellFormed

theorem get?_foldl_insert_empty (ids : List Nat) (store : Store Interval) (id : Nat) :
    (ids.foldl (fun store id => store.insert id Interval.empty) store).get? id =
      if id ∈ ids then some .empty else store.get? id := by
  induction ids generalizing store with
  | nil => simp
  | cons first rest ih =>
      rw [List.foldl_cons, ih, Store.get?_insert]
      by_cases hrest : id ∈ rest
      · simp [hrest]
      · by_cases hfirst : id = first <;> simp [hrest, hfirst]

theorem get?_initial (body : Body) (options : Options) (id : Nat) :
    (body.initial options).store.get? id =
      if body.tracked id = true then some .empty else none := by
  simp only [initial, State.record_store]
  rw [get?_foldl_insert_empty]
  simp only [mem_trackedIds]
  rfl

theorem worklist_initial (body : Body) (options : Options) :
    (body.initial options).worklist = Worklist.empty.pushAll body.trackedIds := by
  simp only [initial, State.record_worklist]

theorem mem_worklist_initial {body : Body} {options : Options} {id : Nat} :
    id ∈ (body.initial options).worklist.toList ↔ body.tracked id = true := by
  rw [worklist_initial, Worklist.faithful_empty.mem_pushAll, mem_trackedIds]
  simp

/-- At the start the tracked instructions wait in the order of the arena. -/
theorem toList_initial (body : Body) (options : Options) :
    (body.initial options).worklist.toList = body.trackedIds := by
  have hnodup : body.trackedIds.Nodup := List.nodup_range.filter _
  rw [worklist_initial, Worklist.toList_pushAll, Worklist.toList_empty, List.nil_append,
    Worklist.faithful_empty.appended_eq hnodup (by simp)]

theorem consistent_initial (body : Body) (options : Options) :
    body.Consistent (body.initial options) where
  faithful := by
    rw [worklist_initial]
    exact Worklist.faithful_empty.pushAll _
  pending_tracked id hid := mem_worklist_initial.mp hid
  isSome_get? id := by
    rw [get?_initial]
    cases body.tracked id <;> rfl
  wellFormed id interval hinterval := by
    rw [get?_initial] at hinterval
    split at hinterval
    · rw [← Option.some.inj hinterval]
      exact Interval.wellFormed_empty
    · cases hinterval

section Consistency

variable {body : Body} {options : Options} {before after : State} {id : Nat} {value : Interval}

theorem Consistent.get?_eq_some (hstate : body.Consistent before)
    (htracked : body.tracked id = true) :
    before.store.get? id = some (before.intervalOf id) := by
  have hsome := hstate.isSome_get? id
  rw [htracked, Option.isSome_iff_exists] at hsome
  obtain ⟨interval, hinterval⟩ := hsome
  rw [State.intervalOf, hinterval, Option.getD_some]

theorem Consistent.intervalOf_of_not_tracked (hstate : body.Consistent before)
    (htracked : ¬ body.tracked id = true) : before.intervalOf id = .empty := by
  have hnone := hstate.isSome_get? id
  rw [Bool.not_eq_true] at htracked
  rw [htracked, Option.isSome_eq_false_iff, Option.isNone_iff_eq_none] at hnone
  rw [State.intervalOf, hnone, Option.getD_none]

theorem Evaluation.toList_eq (hevaluation : body.Evaluation options before id value after) :
    ∃ rest, before.worklist.toList = id :: rest := by
  obtain ⟨rest, hpop, _⟩ := hevaluation.effect
  exact ⟨rest.toList, (Worklist.toList_of_pop? hpop).1⟩

theorem Evaluation.tracked (hevaluation : body.Evaluation options before id value after)
    (hbefore : body.Consistent before) : body.tracked id = true := by
  obtain ⟨rest, hlist⟩ := hevaluation.toList_eq
  exact hbefore.pending_tracked id (hlist ▸ List.mem_cons_self)

theorem Evaluation.pending (hevaluation : body.Evaluation options before id value after) :
    id ∈ before.worklist.toList := by
  obtain ⟨rest, hlist⟩ := hevaluation.toList_eq
  exact hlist ▸ List.mem_cons_self

/-- After an evaluation, the store holds the revised interval and is otherwise unchanged. -/
theorem Evaluation.get?_after (hevaluation : body.Evaluation options before id value after)
    (hbefore : body.Consistent before) (other : Nat) :
    after.store.get? other =
      if other = id then some (before.revised options id value) else before.store.get? other := by
  obtain ⟨rest, hpop, ⟨hnew, hstore, _⟩ | ⟨_, hstore, _⟩⟩ := hevaluation.effect
  · rw [hstore]
    split
    · rename_i hother
      rw [hother, hnew, hbefore.get?_eq_some (hevaluation.tracked hbefore)]
    · rfl
  · rw [hstore, Store.get?_insert]

theorem Evaluation.intervalOf_after (hevaluation : body.Evaluation options before id value after)
    (hbefore : body.Consistent before) (other : Nat) :
    after.intervalOf other =
      if other = id then before.revised options id value else before.intervalOf other := by
  unfold State.intervalOf
  rw [hevaluation.get?_after hbefore]
  split <;> rfl

theorem Evaluation.intervalOf_self (hevaluation : body.Evaluation options before id value after)
    (hbefore : body.Consistent before) :
    after.intervalOf id = before.revised options id value := by
  rw [hevaluation.intervalOf_after hbefore, if_pos rfl]

theorem Evaluation.intervalOf_of_ne (hevaluation : body.Evaluation options before id value after)
    (hbefore : body.Consistent before) {other : Nat} (hother : other ≠ id) :
    after.intervalOf other = before.intervalOf other := by
  rw [hevaluation.intervalOf_after hbefore, if_neg hother]

theorem Evaluation.visitsOf_after (hevaluation : body.Evaluation options before id value after)
    (other : Nat) :
    after.visitsOf other =
      if other = id then before.visitsOf id + 1 else before.visitsOf other := by
  rw [State.visitsOf, hevaluation.visits, Store.get?_insert]
  split <;> rfl

theorem Evaluation.visitsOf_self (hevaluation : body.Evaluation options before id value after) :
    after.visitsOf id = before.visitsOf id + 1 := by
  rw [hevaluation.visitsOf_after, if_pos rfl]

theorem Evaluation.visitsOf_of_ne (hevaluation : body.Evaluation options before id value after)
    {other : Nat} (hother : other ≠ id) : after.visitsOf other = before.visitsOf other := by
  rw [hevaluation.visitsOf_after, if_neg hother]

theorem Evaluation.wellFormed (hevaluation : body.Evaluation options before id value after)
    (hbefore : body.Consistent before) : value.WellFormed := by
  obtain ⟨node, _, hvalue⟩ := evaluate_eq_ok_iff.mp hevaluation.evaluate
  exact Instruction.wellFormed_of_transfer hbefore.wellFormed hvalue

/-- An instruction is pending after an evaluation if it was pending behind the evaluated one, or if
it is a tracked user of a changed one. -/
theorem Evaluation.mem_worklist_after (hevaluation : body.Evaluation options before id value after)
    (hbefore : body.Consistent before) (other : Nat) :
    other ∈ after.worklist.toList ↔
      other ≠ id ∧ other ∈ before.worklist.toList ∨
        before.revised options id value ≠ before.intervalOf id ∧
          other ∈ body.trackedUsers id := by
  obtain ⟨rest, hpop, hcases⟩ := hevaluation.effect
  have hrest := hbefore.faithful.pop hpop
  have hmem : other ∈ rest.toList ↔ other ≠ id ∧ other ∈ before.worklist.toList := by
    rw [← hrest.contains_iff, Worklist.contains_of_pop? hpop, Bool.and_eq_true,
      decide_eq_true_eq, hbefore.faithful.contains_iff, ne_comm]
  rcases hcases with ⟨hnew, _, hworklist⟩ | ⟨hnew, _, hworklist⟩
  · rw [hworklist, hmem]
    simp [hnew]
  · rw [hworklist, hrest.mem_pushAll, hmem]
    simp [hnew]

theorem Evaluation.consistent (hevaluation : body.Evaluation options before id value after)
    (hbefore : body.Consistent before) : body.Consistent after where
  faithful := by
    obtain ⟨rest, hpop, ⟨_, _, hworklist⟩ | ⟨_, _, hworklist⟩⟩ := hevaluation.effect
    · rw [hworklist]
      exact hbefore.faithful.pop hpop
    · rw [hworklist]
      exact (hbefore.faithful.pop hpop).pushAll _
  pending_tracked other hother := by
    rcases (hevaluation.mem_worklist_after hbefore other).mp hother with ⟨_, hold⟩ | ⟨_, huser⟩
    · exact hbefore.pending_tracked other hold
    · exact (List.mem_filter.mp huser).2
  isSome_get? other := by
    rw [hevaluation.get?_after hbefore]
    split
    · rename_i hother
      rw [hother, hevaluation.tracked hbefore, Option.isSome_some]
    · exact hbefore.isSome_get? other
  wellFormed other interval hinterval := by
    rw [hevaluation.get?_after hbefore] at hinterval
    split at hinterval
    · rw [← Option.some.inj hinterval]
      exact State.wellFormed_revised (hevaluation.wellFormed hbefore) _ _ _
    · exact hbefore.wellFormed other interval hinterval

theorem Reaches.consistent (hreach : body.Reaches options before after)
    (hbefore : body.Consistent before) : body.Consistent after :=
  hreach.invariant body.Consistent hbefore fun _ _ _ _ _ hevaluation => hevaluation.consistent

end Consistency

/-! ## Runs -/

section Runs

variable {body : Body} {options : Options} {state later : State} {fuel : Nat}

theorem advance?_eq_none_iff :
    body.advance? options state = none ↔ state.worklist.toList = [] := by
  rw [← Worklist.pop?_eq_none_iff]
  unfold advance?
  cases state.worklist.pop? <;> simp

theorem not_step_of_toList (hempty : state.worklist.toList = []) (next : State) :
    ¬ body.Step options state next := by
  intro hstep
  obtain ⟨id, value, hevaluation⟩ := hstep.exists_evaluation
  obtain ⟨rest, hlist⟩ := hevaluation.toList_eq
  rw [hempty] at hlist
  cases hlist

theorem run_zero_of_toList (hpending : state.worklist.toList ≠ []) :
    body.run options 0 state = none := by
  rw [run, if_neg (mt Worklist.isEmpty_iff.mp hpending)]

theorem run_succ_of_step (hstep : body.Step options state later) (fuel : Nat) :
    body.run options (fuel + 1) state = body.run options fuel later := by
  unfold Step at hstep
  rw [run, hstep]

/-- With enough fuel, a run continues from any state that it reaches. -/
theorem Reaches.exists_run_eq (hreach : body.Reaches options state later) :
    ∃ steps, ∀ fuel, body.run options (steps + fuel) state = body.run options fuel later := by
  induction hreach with
  | refl => exact ⟨0, fun fuel => by rw [Nat.zero_add]⟩
  | tail _ hstep ih =>
      obtain ⟨steps, hsteps⟩ := ih
      refine ⟨steps + 1, fun fuel => ?_⟩
      rw [Nat.add_assoc, hsteps, Nat.add_comm 1 fuel, run_succ_of_step hstep]

/-- A run that ends reaches a state without a next one: the worklist is empty, or the next
evaluation faults. -/
theorem exists_halted_of_run (hrun : (body.run options fuel state).isSome = true) :
    ∃ final, body.Reaches options state final ∧ ∀ next, ¬ body.Step options final next := by
  induction fuel generalizing state with
  | zero =>
      rw [run] at hrun
      split at hrun
      · rename_i hempty
        exact ⟨state, .refl, not_step_of_toList (Worklist.isEmpty_iff.mp hempty)⟩
      · cases hrun
  | succ fuel ih =>
      rw [run] at hrun
      split at hrun
      · rename_i hnone
        exact ⟨state, .refl, not_step_of_toList (advance?_eq_none_iff.mp hnone)⟩
      · rename_i fault hfault
        refine ⟨state, .refl, fun next hnext => ?_⟩
        rw [Step, hfault] at hnext
        cases hnext
      · rename_i next hnext
        obtain ⟨final, hreach, hfinal⟩ := ih hrun
        exact ⟨final, .head hnext hreach, hfinal⟩

theorem reaches_of_run {final : State} (hrun : body.run options fuel state = some (.ok final)) :
    body.Reaches options state final ∧ final.worklist.toList = [] := by
  induction fuel generalizing state with
  | zero =>
      rw [run] at hrun
      split at hrun
      · rename_i hempty
        cases hrun
        exact ⟨.refl, Worklist.isEmpty_iff.mp hempty⟩
      · cases hrun
  | succ fuel ih =>
      rw [run] at hrun
      split at hrun
      · rename_i hnone
        cases hrun
        exact ⟨.refl, advance?_eq_none_iff.mp hnone⟩
      · cases hrun
      · rename_i next hnext
        obtain ⟨hreach, hempty⟩ := ih hrun
        exact ⟨.head hnext hreach, hempty⟩

/-- Whether the run ends within so many evaluations and every state of it passes a test. -/
def passes (body : Body) (options : Options) (test : State → Bool) : Nat → State → Bool
  | 0, state => test state && state.worklist.isEmpty
  | steps + 1, state =>
    test state &&
      match body.advance? options state with
      | some (.ok next) => body.passes options test steps next
      | _ => true

theorem test_of_passes {test : State → Bool} {steps : Nat}
    (hpasses : body.passes options test steps state = true)
    (hreach : body.Reaches options state later) : test later = true := by
  induction steps generalizing state with
  | zero =>
      rw [passes, Bool.and_eq_true] at hpasses
      rcases Relation.ReflTransGen.cases_head hreach with rfl | ⟨next, hnext, _⟩
      · exact hpasses.1
      · exact absurd hnext (not_step_of_toList (Worklist.isEmpty_iff.mp hpasses.2) next)
  | succ steps ih =>
      rw [passes, Bool.and_eq_true] at hpasses
      rcases Relation.ReflTransGen.cases_head hreach with rfl | ⟨next, hnext, hreach⟩
      · exact hpasses.1
      · have hrest := hpasses.2
        unfold Step at hnext
        rw [hnext] at hrest
        exact ih hrest hreach

end Runs

/-! ## Bodies with the same runs -/

/-- All that a run reads of a body is the same for two bodies. -/
structure RunsLike (left right : Body) : Prop where
  /-- The same positions are tracked. -/
  trackedIds : left.trackedIds = right.trackedIds
  /-- Evaluations have the same outcome. -/
  evaluate : ∀ id store, left.evaluate id store = right.evaluate id store
  /-- Evaluations record the same about their operands. -/
  transferEvents : ∀ id store, left.transferEvents id store = right.transferEvents id store
  /-- A change is passed on to the same users. -/
  findTrackedUsers : ∀ id, left.findTrackedUsers id = right.findTrackedUsers id

namespace RunsLike

variable {left right : Body} (hlike : left.RunsLike right) (options : Options)

include hlike

theorem initial_eq : left.initial options = right.initial options := by
  simp only [initial, hlike.trackedIds]

theorem visit_eq (state : State) (id : Nat) :
    left.visit options state id = right.visit options state id := by
  simp only [visit, hlike.evaluate, hlike.transferEvents, hlike.findTrackedUsers]

theorem run_eq (fuel : Nat) (state : State) :
    left.run options fuel state = right.run options fuel state := by
  induction fuel generalizing state with
  | zero => rfl
  | succ fuel ih => simp only [run, advance?, hlike.visit_eq, ih]

end RunsLike

end Body

namespace Function

/-- Functions whose bodies have the same runs have the same ranges. -/
theorem ranges?_eq_of_runsLike {left right : Function}
    (hlike : Option.Rel Body.RunsLike left.body right.body) (fuel : Nat) (options : Options) :
    left.ranges? fuel options = right.ranges? fuel options := by
  obtain ⟨_, _, _, body⟩ := left
  obtain ⟨_, _, _, other⟩ := right
  cases hlike with
  | none => rfl
  | some hlike => simp only [ranges?, hlike.initial_eq, hlike.run_eq]

variable {function : Function} {body : Body} {options : Options} {fuel : Nat}

theorem ranges?_of_body (hbody : function.body = some body) (fuel : Nat) (options : Options) :
    function.ranges? fuel options =
      (body.run options fuel (body.initial options)).map fun outcome =>
        outcome.map fun state => ⟨state.store, state.evaluations, state.events.reverse⟩ := by
  unfold ranges?
  rw [hbody]
  dsimp only
  cases body.run options fuel (body.initial options) with
  | none => rfl
  | some outcome => cases outcome <;> rfl

theorem ranges?_eq_error_iff {fault : Fault} (hbody : function.body = some body) :
    function.ranges? fuel options = some (.error fault) ↔
      body.run options fuel (body.initial options) = some (.error fault) := by
  rw [ranges?_of_body hbody]
  cases body.run options fuel (body.initial options) with
  | none => simp
  | some outcome => cases outcome <;> simp [Except.map]

/-- The ranges of a function are read off the state in which its run ends. -/
theorem exists_run_of_ranges? {ranges : Ranges} (hbody : function.body = some body)
    (hranges : function.ranges? fuel options = some (.ok ranges)) :
    ∃ final, body.run options fuel (body.initial options) = some (.ok final) ∧
      ranges = ⟨final.store, final.evaluations, final.events.reverse⟩ := by
  rw [ranges?_of_body hbody, Option.map_eq_some_iff] at hranges
  obtain ⟨outcome, hrun, houtcome⟩ := hranges
  cases outcome with
  | error fault => cases houtcome
  | ok final =>
      cases houtcome
      exact ⟨final, hrun, rfl⟩

/-- The ranges of a function are the intervals of a state that its run reaches and in which nothing
is pending. -/
theorem exists_final_of_ranges? {ranges : Ranges} (hbody : function.body = some body)
    (hranges : function.ranges? fuel options = some (.ok ranges)) :
    ∃ final, body.Reaches options (body.initial options) final ∧
      final.worklist.toList = [] ∧ ranges.store = final.store := by
  obtain ⟨final, hrun, rfl⟩ := exists_run_of_ranges? hbody hranges
  obtain ⟨hreach, hempty⟩ := Body.reaches_of_run hrun
  exact ⟨final, hreach, hempty, rfl⟩

end Function

end ValueRange

import ValueRange.Proofs.Convergence
import ValueRange.Proofs.Emptiness
import ValueRange.Proofs.Rays
import ValueRange.Proofs.Recurrence
import ValueRange.Proofs.SingleSweep

/-!
# Loops that count

A counting loop joins a first value with the result of adding the same amount to what it has. Its
intervals lie on a ray, and whatever the threshold they get to the end of it. What has to be shown
for this is that no interval shrinks on the way. The successor of the counter is never evaluated more
often than the counter itself, so it is widened only after the counter has reached the end of the
ray, when widening changes nothing.
-/

namespace ValueRange

/-! ## The run of a loop -/

namespace Body

/-- The tracked instructions are, in the order of the arena, a counter, its successor and a test. The
counter joins `start` and the successor, which is `next` of the counter. -/
structure Cycle (body : Body) (start : Interval) (next : Interval → Interval)
    (counter successor test : Nat) : Prop where
  trackedIds_eq : body.trackedIds = [counter, successor, test]
  evaluate_counter : ∀ {state}, body.Consistent state →
    body.evaluate counter state.store = .ok (start.lub (state.intervalOf successor))
  evaluate_successor : ∀ {state}, body.Consistent state →
    body.evaluate successor state.store = .ok (next (state.intervalOf counter))
  evaluate_test : ∀ {state}, body.Consistent state → body.evaluate test state.store = .ok .unit
  counter_users : counter ∉ body.trackedUsers counter
  successor_users : successor ∉ body.trackedUsers successor
  test_users : ∀ user, user ∉ body.trackedUsers test

/-- What holds between the evaluations of a loop that counts along a ray. -/
structure Counting (options : Options) (start top : Interval) (next : Interval → Interval)
    (OnRay : Interval → Prop) (counter successor test : Nat) (state : State) : Prop where
  /-- The counter lies on the ray as soon as it has a value. -/
  on_ray : state.intervalOf counter = .empty ∨ OnRay (state.intervalOf counter)
  /-- The successor comes from an interval that the counter contains. -/
  follows : state.intervalOf successor = .empty ∨
    ∃ earlier, OnRay earlier ∧ earlier ≤ state.intervalOf counter ∧
      state.intervalOf successor = next earlier
  /-- The counter does not shrink when it is evaluated. -/
  grows : counter ∈ state.worklist.toList →
    state.intervalOf counter ≤ start.lub (state.intervalOf successor)
  /-- The successor is not evaluated more often than the counter. -/
  visits_le : state.visitsOf successor ≤ state.visitsOf counter
  /-- A pending successor has been evaluated less often, unless the counter is next. -/
  visits_lt : successor ∈ state.worklist.toList →
    state.worklist.toList.head? = some counter ∨
      state.visitsOf successor < state.visitsOf counter
  /-- When the successor is about to be widened, the counter has reached the end of the ray. -/
  reached : successor ∈ state.worklist.toList → state.intervalOf successor ≠ .empty →
    options.exceeded (state.visitsOf successor + 1) = true → state.intervalOf counter = top
  tested : state.intervalOf test = .empty ∨ state.intervalOf test = .unit

section Steps

variable {body : Body} {options : Options} {start top : Interval} {next : Interval → Interval}
  {OnRay : Interval → Prop} {counter successor test id : Nat} {before after state : State}
  {value : Interval}

theorem pairwise_ne_of_trackedIds (hids : body.trackedIds = [counter, successor, test]) :
    counter ≠ successor ∧ counter ≠ test ∧ successor ≠ test := by
  have hnodup : body.trackedIds.Nodup := List.nodup_range.filter _
  rw [hids] at hnodup
  simp only [List.nodup_cons, List.mem_cons, List.not_mem_nil, or_false, not_or] at hnodup
  exact ⟨hnodup.1.1, hnodup.1.2, hnodup.2.1⟩

theorem tracked_iff_of_trackedIds (hids : body.trackedIds = [counter, successor, test]) :
    body.tracked id = true ↔ id = counter ∨ id = successor ∨ id = test := by
  rw [← mem_trackedIds, hids]
  simp only [List.mem_cons, List.not_mem_nil, or_false]

theorem counting_initial (hcycle : body.Cycle start next counter successor test) :
    Counting options start top next OnRay counter successor test (body.initial options) := by
  have hempty : ∀ id, (body.initial options).intervalOf id = .empty := by
    intro id
    rw [State.intervalOf, get?_initial]
    split <;> rfl
  refine ⟨Or.inl (hempty _), Or.inl (hempty _), fun _ => ?_, ?_, fun _ => Or.inl ?_, ?_,
    Or.inl (hempty _)⟩
  · rw [hempty counter]
    exact Interval.empty_le _
  · rw [visitsOf_initial, visitsOf_initial]
  · rw [toList_initial, hcycle.trackedIds_eq, List.head?_cons]
  · intro _ hsuccessor
    exact absurd (hempty successor) hsuccessor

/-- A value on the ray that contains the old one is stored, or the end of the ray in its place. -/
theorem revised_on_ray (hprogress : Interval.Progress start top next OnRay)
    (hold : before.intervalOf id = .empty ∨ OnRay (before.intervalOf id)) (hvalue : OnRay value)
    (hle : before.intervalOf id ≤ value) :
    OnRay (before.revised options id value) ∧
      (before.intervalOf id ≠ .empty → options.exceeded (before.visitsOf id + 1) = true →
        before.revised options id value ≠ before.intervalOf id →
        before.revised options id value = top) := by
  rcases hold with hempty | hold
  · rw [State.revised_of_empty hempty]
    exact ⟨hvalue, fun hne => absurd hempty hne⟩
  · unfold State.revised
    split
    · rename_i hwidens
      rw [Bool.and_eq_true, decide_eq_true_eq] at hwidens
      rw [hprogress.widen_eq hvalue hold (lt_of_le_of_ne hle hwidens.2.symm)]
      exact ⟨hprogress.top_mem, fun _ _ _ => rfl⟩
    · rename_i hwidens
      refine ⟨hvalue, fun _ hexceeded hnew => absurd ?_ hwidens⟩
      rw [hexceeded, Bool.true_and, decide_eq_true_eq]
      exact hnew

/-- The counter has a value if its successor has one. -/
theorem Counting.on_ray_of_le (hprogress : Interval.Progress start top next OnRay)
    (hcounting : Counting options start top next OnRay counter successor test state)
    {earlier : Interval} (hearlier : OnRay earlier) (hle : earlier ≤ state.intervalOf counter) :
    OnRay (state.intervalOf counter) := by
  refine hcounting.on_ray.resolve_left fun hempty => hprogress.ne_empty hearlier ?_
  rw [hempty] at hle
  exact le_antisymm hle (Interval.empty_le earlier)

theorem Counting.join_mem (hprogress : Interval.Progress start top next OnRay)
    (hcounting : Counting options start top next OnRay counter successor test state) :
    OnRay (start.lub (state.intervalOf successor)) := by
  rcases hcounting.follows with hempty | ⟨earlier, hearlier, _, heq⟩
  · have hstart : start.lub .empty = start := sup_of_le_left (Interval.empty_le start)
    rw [hempty, hstart]
    exact hprogress.start_mem
  · rw [heq]
    exact hprogress.join_mem hearlier

theorem Counting.after_counter (hprogress : Interval.Progress start top next OnRay)
    (hcycle : body.Cycle start next counter successor test) (hbefore : body.Consistent before)
    (hcounting : Counting options start top next OnRay counter successor test before)
    (hevaluation : body.Evaluation options before counter value after) :
    Counting options start top next OnRay counter successor test after ∧
      before.intervalOf counter ≤ after.intervalOf counter := by
  obtain ⟨hsuccessor, htest, _⟩ := pairwise_ne_of_trackedIds hcycle.trackedIds_eq
  have hvalue : start.lub (before.intervalOf successor) = value :=
    Except.ok.inj ((hcycle.evaluate_counter hbefore).symm.trans hevaluation.evaluate)
  have hle : before.intervalOf counter ≤ value := hvalue ▸ hcounting.grows hevaluation.pending
  have hgrown := hle.trans (before.le_revised options counter value)
  obtain ⟨hnew, htop⟩ := @revised_on_ray options _ _ _ _ counter before value hprogress
    hcounting.on_ray (hvalue ▸ hcounting.join_mem hprogress) hle
  have hmem := hevaluation.mem_worklist_after hbefore
  have hvisits := hcounting.visits_le
  refine ⟨⟨?_, ?_, ?_, ?_, ?_, ?_, ?_⟩, ?_⟩ <;>
    simp only [hevaluation.intervalOf_self hbefore, hevaluation.visitsOf_self,
      hevaluation.intervalOf_of_ne hbefore hsuccessor.symm,
      hevaluation.visitsOf_of_ne hsuccessor.symm, hevaluation.intervalOf_of_ne hbefore htest.symm]
  · exact Or.inr hnew
  · exact hcounting.follows.imp_right fun ⟨earlier, hearlier, hearlierLe, heq⟩ =>
      ⟨earlier, hearlier, hearlierLe.trans hgrown, heq⟩
  · intro hpending
    rcases (hmem counter).mp hpending with ⟨hne, _⟩ | ⟨_, huser⟩
    · exact absurd rfl hne
    · exact absurd huser hcycle.counter_users
  · omega
  · exact fun _ => Or.inr (Nat.lt_succ_of_le hvisits)
  · intro hpending hne hexceeded
    rcases (hmem successor).mp hpending with ⟨_, hold⟩ | ⟨hchanged, _⟩
    · -- The successor was about to be widened before, with the counter at the end of the ray.
      rw [hcounting.reached hold hne hexceeded] at hgrown
      exact le_antisymm (hprogress.le_top hnew) hgrown
    · obtain ⟨earlier, hearlier, hearlierLe, _⟩ := hcounting.follows.resolve_left hne
      have hold := hcounting.on_ray_of_le hprogress hearlier hearlierLe
      exact htop (hprogress.ne_empty hold)
        (Options.exceeded_mono (Nat.succ_le_succ hvisits) hexceeded) hchanged
  · exact hcounting.tested
  · exact hgrown

/-- A new value of the successor is stored as it is. If it is widened, the counter is at the end of
the ray, and the value reaches infinity by itself. -/
theorem Counting.revised_successor (hprogress : Interval.Progress start top next OnRay)
    (hcounting : Counting options start top next OnRay counter successor test before)
    (hpending : successor ∈ before.worklist.toList) :
    before.revised options successor (next (before.intervalOf counter)) =
      next (before.intervalOf counter) := by
  by_cases hempty : before.intervalOf successor = .empty
  · exact State.revised_of_empty hempty options _
  · unfold State.revised
    split
    · rename_i hwidens
      rw [Bool.and_eq_true] at hwidens
      obtain ⟨earlier, hearlier, _, heq⟩ := hcounting.follows.resolve_left hempty
      rw [hcounting.reached hpending hempty hwidens.1, heq]
      exact hprogress.next_widen hearlier
    · rfl

theorem Counting.after_successor (hprogress : Interval.Progress start top next OnRay)
    (hcycle : body.Cycle start next counter successor test) (hbefore : body.Consistent before)
    (hcounting : Counting options start top next OnRay counter successor test before)
    (hevaluation : body.Evaluation options before successor value after) :
    Counting options start top next OnRay counter successor test after ∧
      before.intervalOf successor ≤ after.intervalOf successor := by
  obtain ⟨hcounter, _, htest⟩ := pairwise_ne_of_trackedIds hcycle.trackedIds_eq
  have hvalue : next (before.intervalOf counter) = value :=
    Except.ok.inj ((hcycle.evaluate_successor hbefore).symm.trans hevaluation.evaluate)
  have hrevised : before.revised options successor value = next (before.intervalOf counter) :=
    hvalue ▸ hcounting.revised_successor hprogress hevaluation.pending
  have hidle : successor ∉ after.worklist.toList := by
    intro hpending
    rcases (hevaluation.mem_worklist_after hbefore successor).mp hpending with
      ⟨hne, _⟩ | ⟨_, huser⟩
    · exact hne rfl
    · exact hcycle.successor_users huser
  refine ⟨⟨?_, ?_, ?_, ?_, ?_, ?_, ?_⟩, ?_⟩ <;>
    simp only [hevaluation.intervalOf_self hbefore, hevaluation.visitsOf_self, hrevised,
      hevaluation.intervalOf_of_ne hbefore hcounter, hevaluation.visitsOf_of_ne hcounter,
      hevaluation.intervalOf_of_ne hbefore htest.symm]
  · exact hcounting.on_ray
  · rcases hcounting.on_ray with hempty | hray
    · rw [hempty, hprogress.next_empty]
      exact Or.inl rfl
    · exact Or.inr ⟨_, hray, le_refl _, rfl⟩
  · intro _
    rcases hcounting.on_ray with hempty | hray
    · rw [hempty]
      exact Interval.empty_le _
    · exact hprogress.le_join hray
  · rcases hcounting.visits_lt hevaluation.pending with hhead | hlt
    · obtain ⟨rest, hlist⟩ := hevaluation.toList_eq
      rw [hlist, List.head?_cons, Option.some.injEq] at hhead
      exact absurd hhead.symm hcounter
    · exact hlt
  · exact fun hpending => absurd hpending hidle
  · exact fun hpending => absurd hpending hidle
  · exact hcounting.tested
  · rcases hcounting.follows with hempty | ⟨earlier, hearlier, hle, heq⟩
    · rw [hempty]
      exact Interval.empty_le _
    · rw [heq]
      exact hprogress.next_le_next hearlier (hcounting.on_ray_of_le hprogress hearlier hle) hle

theorem Counting.after_test (hcycle : body.Cycle start next counter successor test)
    (hbefore : body.Consistent before)
    (hcounting : Counting options start top next OnRay counter successor test before)
    (hevaluation : body.Evaluation options before test value after) :
    Counting options start top next OnRay counter successor test after ∧
      before.intervalOf test ≤ after.intervalOf test := by
  obtain ⟨_, hcounter, hsuccessor⟩ := pairwise_ne_of_trackedIds hcycle.trackedIds_eq
  have hvalue : .unit = value :=
    Except.ok.inj ((hcycle.evaluate_test hbefore).symm.trans hevaluation.evaluate)
  have hrevised : before.revised options test value = .unit := by
    rcases hcounting.tested with hempty | hunit
    · rw [State.revised_of_empty hempty, hvalue]
    · simp [State.revised, hunit, ← hvalue]
  have hmem : ∀ id, id ∈ after.worklist.toList → id ∈ before.worklist.toList := by
    intro id hpending
    rcases (hevaluation.mem_worklist_after hbefore id).mp hpending with ⟨_, hold⟩ | ⟨_, huser⟩
    · exact hold
    · exact absurd huser (hcycle.test_users id)
  refine ⟨⟨?_, ?_, ?_, ?_, ?_, ?_, ?_⟩, ?_⟩ <;>
    simp only [hevaluation.intervalOf_self hbefore, hrevised,
      hevaluation.intervalOf_of_ne hbefore hcounter, hevaluation.visitsOf_of_ne hcounter,
      hevaluation.intervalOf_of_ne hbefore hsuccessor, hevaluation.visitsOf_of_ne hsuccessor]
  · exact hcounting.on_ray
  · exact hcounting.follows
  · exact fun hpending => hcounting.grows (hmem _ hpending)
  · exact hcounting.visits_le
  · intro hpending
    rcases hcounting.visits_lt (hmem _ hpending) with hhead | hlt
    · obtain ⟨rest, hlist⟩ := hevaluation.toList_eq
      rw [hlist, List.head?_cons, Option.some.injEq] at hhead
      exact absurd hhead.symm hcounter
    · exact Or.inr hlt
  · exact fun hpending => hcounting.reached (hmem _ hpending)
  · exact Or.inr trivial
  · rcases hcounting.tested with hempty | hunit
    · rw [hempty]
      exact Interval.empty_le _
    · exact hunit.le

/-- Every evaluation keeps the invariant and lets the evaluated interval grow. -/
theorem Counting.after_evaluation (hprogress : Interval.Progress start top next OnRay)
    (hcycle : body.Cycle start next counter successor test) (hbefore : body.Consistent before)
    (hcounting : Counting options start top next OnRay counter successor test before)
    (hevaluation : body.Evaluation options before id value after) :
    Counting options start top next OnRay counter successor test after ∧
      before.intervalOf id ≤ after.intervalOf id := by
  have htracked := hevaluation.tracked hbefore
  rcases (tracked_iff_of_trackedIds hcycle.trackedIds_eq).mp htracked with rfl | rfl | rfl
  · exact hcounting.after_counter hprogress hcycle hbefore hevaluation
  · exact hcounting.after_successor hprogress hcycle hbefore hevaluation
  · exact hcounting.after_test hcycle hbefore hevaluation

theorem Reaches.counting (hprogress : Interval.Progress start top next OnRay)
    (hcycle : body.Cycle start next counter successor test)
    (hreach : body.Reaches options (body.initial options) state) :
    Counting options start top next OnRay counter successor test state := by
  refine hreach.invariant _ (counting_initial hcycle) ?_
  intro before id value after hbefore hevaluation hcounting
  have hconsistent := hbefore.consistent (consistent_initial body options)
  exact (hcounting.after_evaluation hprogress hcycle hconsistent hevaluation).1

theorem Cycle.ascendsFrom_initial (hprogress : Interval.Progress start top next OnRay)
    (hcycle : body.Cycle start next counter successor test) (options : Options) :
    body.AscendsFrom options (body.initial options) := by
  intro before after hreach hstep other
  have hconsistent := hreach.consistent (consistent_initial body options)
  obtain ⟨id, value, hevaluation⟩ := hstep.exists_evaluation
  by_cases hother : other = id
  · have hcounting := hreach.counting hprogress hcycle
    rw [hother]
    exact (hcounting.after_evaluation hprogress hcycle hconsistent hevaluation).2
  · exact (hevaluation.intervalOf_of_ne hconsistent hother).ge

theorem Solution.le_intervalOf (hsolution : body.Solution state.store)
    (hvalue : body.evaluate id state.store = .ok value) : value ≤ state.intervalOf id := by
  obtain ⟨stored, found, hstored, hfound, hle⟩ :=
    hsolution.evaluate_le id (tracked_of_evaluate hvalue)
  rw [hvalue] at hfound
  rw [State.intervalOf, hstored, Option.getD_some, Except.ok.inj hfound]
  exact hle

/-- When nothing is pending any more, the counter has reached the end of the ray. -/
theorem Cycle.intervals_of_solution (hprogress : Interval.Progress start top next OnRay)
    (hcycle : body.Cycle start next counter successor test)
    (hreach : body.Reaches options (body.initial options) state)
    (hsolution : body.Solution state.store) :
    state.intervalOf counter = top ∧ state.intervalOf successor = next top ∧
      state.intervalOf test = .unit := by
  have hstate := hreach.consistent (consistent_initial body options)
  have hcounting := hreach.counting hprogress hcycle
  have hcounter := hsolution.le_intervalOf (hcycle.evaluate_counter hstate)
  have hsuccessor := hsolution.le_intervalOf (hcycle.evaluate_successor hstate)
  have htest := hsolution.le_intervalOf (hcycle.evaluate_test hstate)
  have hray : OnRay (state.intervalOf counter) :=
    hcounting.on_ray_of_le hprogress hprogress.start_mem (le_sup_left.trans hcounter)
  have hnext : state.intervalOf successor = next (state.intervalOf counter) := by
    refine le_antisymm ?_ hsuccessor
    rcases hcounting.follows with hempty | ⟨earlier, hearlier, hle, heq⟩
    · rw [hempty]
      exact Interval.empty_le _
    · rw [heq]
      exact hprogress.next_le_next hearlier hray hle
  have htop : state.intervalOf counter = top :=
    hprogress.eq_top hray (hnext ▸ hcounter)
  refine ⟨htop, htop ▸ hnext, hcounting.tested.resolve_left fun hempty => ?_⟩
  rw [hempty] at htest
  exact absurd htest (by decide)

theorem Cycle.exists_evaluate (hcycle : body.Cycle start next counter successor test)
    (hstate : body.Consistent state) (hid : body.tracked id = true) :
    ∃ value, body.evaluate id state.store = .ok value := by
  rcases (tracked_iff_of_trackedIds hcycle.trackedIds_eq).mp hid with rfl | rfl | rfl
  · exact ⟨_, hcycle.evaluate_counter hstate⟩
  · exact ⟨_, hcycle.evaluate_successor hstate⟩
  · exact ⟨_, hcycle.evaluate_test hstate⟩

/-- With any threshold, the run of the loop ends, and it ends without a fault. -/
theorem Cycle.exists_run (hprogress : Interval.Progress start top next OnRay)
    (hcycle : body.Cycle start next counter successor test) (hexact : body.UsesExact) {limit : Nat}
    (hwidening : options.widening = some limit) :
    ∃ fuel final, body.run options fuel (body.initial options) = some (.ok final) := by
  have hinitial := consistent_initial body options
  have hrun := (hcycle.ascendsFrom_initial hprogress options).isSome_run_of_widening hwidening
    hinitial
  obtain ⟨final, hreach, hhalted⟩ := exists_halted_of_run hrun
  have hfinal := hreach.consistent hinitial
  have hempty : final.worklist.toList = [] := by
    rw [← Worklist.pop?_eq_none_iff]
    cases hpop : final.worklist.pop? with
    | none => rfl
    | some entry =>
        have hpending : entry.1 ∈ final.worklist.toList := by
          rw [(Worklist.toList_of_pop? hpop).1]
          exact List.mem_cons_self
        obtain ⟨value, hvalue⟩ :=
          hcycle.exists_evaluate hfinal (hfinal.pending_tracked entry.1 hpending)
        obtain ⟨after, hstep, _⟩ :=
          exists_step options hpop hvalue fun _ => hexact.knowsUsers entry.1
        exact absurd hstep (hhalted after)
  obtain ⟨steps, hsteps⟩ := hreach.exists_run_eq
  exact ⟨steps + 0, final, (hsteps 0).trans (run_of_toList_eq_nil hempty 0)⟩

/-- With any threshold, the ranges of the loop are the end of the ray and what follows it. -/
theorem Cycle.exists_ranges? (hprogress : Interval.Progress start top next OnRay)
    (hcycle : body.Cycle start next counter successor test) (hexact : body.UsesExact)
    {function : Function} (hbody : function.body = some body) (options : Options) {limit : Nat}
    (hwidening : options.widening = some limit) :
    ∃ fuel ranges, function.ranges? fuel options = some (.ok ranges) ∧
      ranges.store.get? counter = some top ∧ ranges.store.get? successor = some (next top) ∧
      ranges.store.get? test = some .unit := by
  obtain ⟨fuel, final, hrun⟩ := hcycle.exists_run hprogress hexact hwidening
  have hranges : function.ranges? fuel options =
      some (.ok ⟨final.store, final.evaluations, final.events.reverse⟩) := by
    rw [Function.ranges?_of_body hbody, hrun]
    rfl
  obtain ⟨hreach, _⟩ := reaches_of_run hrun
  have hfinal := hreach.consistent (consistent_initial body options)
  have hget : ∀ id, id = counter ∨ id = successor ∨ id = test →
      final.store.get? id = some (final.intervalOf id) := fun id hid =>
    hfinal.get?_eq_some ((tracked_iff_of_trackedIds hcycle.trackedIds_eq).mpr hid)
  obtain ⟨hcounter, hsuccessor, htest⟩ := hcycle.intervals_of_solution hprogress hreach
    (solution_of_ranges? hexact hbody hranges)
  refine ⟨fuel, _, hranges, ?_, ?_, ?_⟩
  · rw [hget counter (by simp), hcounter]
  · rw [hget successor (by simp), hsuccessor]
  · rw [hget test (by simp), htest]

end Steps

/-! ## Counting loops -/

/-- The tracked instructions are, in the order of the arena, `counter = phi [start], [successor]`,
`successor = opcode counter, step` and a modelled comparison of the successor with a constant. -/
structure Counts (body : Body) (opcode : BinaryOp) (start step : Int64)
    (counter successor test : Nat) : Prop where
  trackedIds_eq : body.trackedIds = [counter, successor, test]
  counter_eq : ∃ bits ty ty' entry back, body.instruction? counter =
    some (.phi [(.constant (.int bits start) ty, entry), (.register successor ty', back)])
  successor_eq : ∃ bits ty ty', body.instruction? successor =
    some (.binary opcode (.register counter ty) (.constant (.int bits step) ty'))
  test_eq : ∃ predicate ∉ [Predicate.sge, .sle, .uge, .ule], ∃ bound ty ty',
    body.instruction? test =
        some (.compare predicate (.register successor ty) (.constant bound ty')) ∨
      body.instruction? test =
        some (.compare predicate (.constant bound ty') (.register successor ty))

section Loops

variable {body : Body} {opcode : BinaryOp} {start step : Int64} {counter successor test : Nat}
  {next : Interval → Interval}

theorem UsesExact.mem_registers (hexact : body.UsesExact) {definition user : Nat}
    {instruction : Instruction} (huser : user ∈ body.trackedUsers definition)
    (hinstruction : body.instruction? user = some instruction) :
    definition ∈ instruction.registers := by
  obtain ⟨node, hnode, rfl⟩ := Option.map_eq_some_iff.mp hinstruction
  obtain ⟨_, found, hfound, hreads⟩ := (hexact definition user).mp (List.mem_filter.mp huser).1
  rw [hnode] at hfound
  exact Option.some.inj hfound ▸ hreads

theorem Consistent.interval_register {state : State} {id : Nat} (hstate : body.Consistent state)
    (hid : body.tracked id = true) (ty : Ty) :
    (Value.register id ty).interval state.store = state.intervalOf id := by
  rw [Value.interval, hstate.get?_eq_some hid, Option.getD_some]

theorem Counts.exists_compare (hcounts : body.Counts opcode start step counter successor test) :
    ∃ predicate ∉ [Predicate.sge, .sle, .uge, .ule], ∃ lhs rhs,
      body.instruction? test = some (.compare predicate lhs rhs) ∧
        (Instruction.compare predicate lhs rhs).registers = [successor] := by
  obtain ⟨predicate, hpredicate, bound, ty, ty', htest | htest⟩ := hcounts.test_eq
  · exact ⟨predicate, hpredicate, _, _, htest, rfl⟩
  · exact ⟨predicate, hpredicate, _, _, htest, rfl⟩

theorem Counts.evaluate_test (hcounts : body.Counts opcode start step counter successor test)
    (store : Store Interval) : body.evaluate test store = .ok .unit := by
  obtain ⟨predicate, hpredicate, lhs, rhs, htest, _⟩ := hcounts.exists_compare
  rw [evaluate_of_instruction? htest]
  obtain ⟨value, hvalue⟩ := Instruction.exists_transfer_eq_ok
    (rfl : (Instruction.compare predicate lhs rhs).tracked = true) (decide_eq_false hpredicate) store
  rw [hvalue, Predicate.eq_unit_of_apply hvalue]

/-- The counter and the test use the successor, and the successor uses the counter. -/
theorem Counts.mem_uses (hcounts : body.Counts opcode start step counter successor test)
    (hexact : body.UsesExact) {definition user : Nat}
    (huser : user ∈ body.trackedUsers definition) :
    (definition, user) ∈ [(successor, counter), (counter, successor), (successor, test)] := by
  have hreads := fun instruction => @hexact.mem_registers body definition user instruction huser
  have htracked := (List.mem_filter.mp huser).2
  rcases (tracked_iff_of_trackedIds hcounts.trackedIds_eq).mp htracked with rfl | rfl | rfl
  · obtain ⟨_, _, _, _, _, hcounter⟩ := hcounts.counter_eq
    have hdefinition : definition = successor := List.mem_singleton.mp (hreads _ hcounter)
    simp [hdefinition]
  · obtain ⟨_, _, _, hsuccessor⟩ := hcounts.successor_eq
    have hdefinition : definition = counter := List.mem_singleton.mp (hreads _ hsuccessor)
    simp [hdefinition]
  · obtain ⟨_, _, _, _, htest, hregisters⟩ := hcounts.exists_compare
    have hdefinition : definition = successor :=
      List.mem_singleton.mp (hregisters ▸ hreads _ htest)
    simp [hdefinition]

theorem Counts.cycle (hcounts : body.Counts opcode start step counter successor test)
    (hexact : body.UsesExact)
    (hnext : ∀ interval, opcode.apply interval (.constant step) = .ok (next interval)) :
    body.Cycle (.constant start) next counter successor test := by
  have htracked : ∀ id, id = counter ∨ id = successor ∨ id = test → body.tracked id = true :=
    fun id => (tracked_iff_of_trackedIds hcounts.trackedIds_eq).mpr
  obtain ⟨hcounterNe, htestNe, htestNe'⟩ := pairwise_ne_of_trackedIds hcounts.trackedIds_eq
  refine ⟨hcounts.trackedIds_eq, fun {state} hstate => ?_, fun {state} hstate => ?_,
    fun {state} _ => hcounts.evaluate_test state.store, fun huser => ?_, fun huser => ?_,
    fun user huser => ?_⟩
  · obtain ⟨_, _, _, _, _, hcounter⟩ := hcounts.counter_eq
    rw [evaluate_of_instruction? hcounter]
    simp only [Instruction.transfer, Instruction.incomingIntervals, List.map_cons, List.map_nil,
      List.foldl_cons, List.foldl_nil, hstate.interval_register (htracked successor (by simp))]
    exact congrArg (fun joined => Except.ok (Interval.lub joined _))
      (sup_of_le_right (Interval.empty_le (.constant start)))
  · obtain ⟨_, _, _, hsuccessor⟩ := hcounts.successor_eq
    rw [evaluate_of_instruction? hsuccessor, Instruction.transfer,
      hstate.interval_register (htracked counter (by simp))]
    exact hnext _
  · simpa [hcounterNe] using hcounts.mem_uses hexact huser
  · simpa [hcounterNe.symm, htestNe'] using hcounts.mem_uses hexact huser
  · simpa [htestNe.symm, htestNe'.symm] using hcounts.mem_uses hexact huser

end Loops

/-- With any threshold, a loop that counts up or down by a positive amount ends with the half-line
from its first value on. -/
theorem counting_loops_reach_half_lines {document : Document.Function} {function : Function}
    {body : Body} (hfunction : Function.ofDocument document = .ok function)
    (hbody : function.body = some body) {start step : Int64} (hstep : 0 < step.toInt)
    {counter successor test : Nat} (verbose : Bool) (limit : Nat) :
    (body.Counts .add start step counter successor test →
      start.toInt + step.toInt ≤ Int64.maxValue.toInt →
      ∃ fuel ranges, function.ranges? fuel ⟨verbose, some limit⟩ = some (.ok ranges) ∧
        ranges.store.get? counter = some ⟨.finite start, .posInf⟩ ∧
        ranges.store.get? successor = some ⟨.finite (start + step), .posInf⟩ ∧
        ranges.store.get? test = some .unit) ∧
    (body.Counts .sub start step counter successor test →
      Int64.minValue.toInt ≤ start.toInt - step.toInt →
      ∃ fuel ranges, function.ranges? fuel ⟨verbose, some limit⟩ = some (.ok ranges) ∧
        ranges.store.get? counter = some ⟨.negInf, .finite start⟩ ∧
        ranges.store.get? successor = some ⟨.negInf, .finite (start - step)⟩ ∧
        ranges.store.get? test = some .unit) := by
  have hexact := Function.usesExact_of_ofDocument hfunction hbody
  constructor
  · intro hcounts hroom
    have hcycle := hcounts.cycle hexact fun interval => rfl
    have hranges := hcycle.exists_ranges? (Interval.progress_up hstep hroom) hexact hbody
      ⟨verbose, some limit⟩ rfl
    rwa [Interval.up_top_add hstep hroom] at hranges
  · intro hcounts hroom
    have hneg := toInt_neg_of_pos hstep
    have hstep' : (-step).toInt < 0 := by omega
    have hroom' : Int64.minValue.toInt ≤ start.toInt + (-step).toInt := by omega
    have hcycle := hcounts.cycle hexact fun interval =>
      congrArg Except.ok (Interval.sub_constant hstep interval)
    have hranges := hcycle.exists_ranges? (Interval.progress_down hstep' hroom') hexact hbody
      ⟨verbose, some limit⟩ rfl
    rwa [Interval.down_top_add hstep' hroom', ← Int64.sub_eq_add_neg] at hranges

open Document in
/-- A loop over 64-bit integers that counts by seven: `i = phi [start], [next]`, `next = opcode i, 7`
and `c = icmp ne next, 0`. -/
def strideLoop (opcode start : String) : Document.Function :=
  let ty : TypeExpr := .int 64
  let number (value : String) : Operand := .constant ⟨ty, .int value⟩
  { name := "stride"
    params := []
    ret := .void
    blocks :=
      [⟨0, none, [], ⟨.void, 0, none, .goto 1⟩⟩,
        ⟨1, none,
          [⟨ty, 1, some "i", .phi [⟨number start, 0⟩, ⟨.instruction ty 2, 1⟩]⟩,
            ⟨ty, 2, some "next", .binary opcode (.instruction ty 1) (number "7")⟩,
            ⟨.int 1, 3, some "c", .compare "ne" (.instruction ty 2) (number "0")⟩],
          ⟨.void, 4, none, .branch (.instruction (.int 1) 3) 1 2⟩⟩,
        ⟨2, none, [], ⟨.void, 5, none, .ret none⟩⟩] }

/-- The checked body of such a loop. -/
def strideBody (opcode : BinaryOp) (start : Int64) : Body :=
  { blocks :=
      [⟨0, none, [], .goto 1⟩, ⟨1, none, [0, 1, 2], .branch (.register 2 (.int 1)) 1 2⟩,
        ⟨2, none, [], .ret none⟩]
    nodes :=
      #[⟨1, some "i", .int 64,
          .phi [(.constant (.int 64 start) (.int 64), 0), (.register 1 (.int 64), 1)]⟩,
        ⟨2, some "next", .int 64,
          .binary opcode (.register 0 (.int 64)) (.constant (.int 64 7) (.int 64))⟩,
        ⟨3, some "c", .int 1,
          .compare .ne (.register 1 (.int 64)) (.constant (.int 64 0) (.int 64))⟩]
    uses := ⟨#[[1], [2, 0], []]⟩ }

theorem counts_strideBody (opcode : BinaryOp) (start : Int64) :
    (strideBody opcode start).Counts opcode start 7 0 1 2 :=
  ⟨rfl, ⟨_, _, _, _, _, rfl⟩, ⟨_, _, _, rfl⟩, .ne, by decide, _, _, _, Or.inl rfl⟩

/-- Counting by seven to the greatest integer, and to the least one, still ends with half-lines. -/
theorem strideLoop_reaches_half_lines :
    (∃ function, Function.ofDocument (strideLoop "add" "9223372036854775800") = .ok function ∧
      ∃ fuel ranges, function.ranges? fuel ⟨false, some 100⟩ = some (.ok ranges) ∧
        ranges.store.get? 0 = some ⟨.finite 9223372036854775800, .posInf⟩ ∧
        ranges.store.get? 1 = some ⟨.finite 9223372036854775807, .posInf⟩) ∧
    (∃ function, Function.ofDocument (strideLoop "sub" "-9223372036854775801") = .ok function ∧
      ∃ fuel ranges, function.ranges? fuel ⟨false, some 0⟩ = some (.ok ranges) ∧
        ranges.store.get? 0 = some ⟨.negInf, .finite (-9223372036854775801)⟩ ∧
        ranges.store.get? 1 = some ⟨.negInf, .finite (-9223372036854775808)⟩) := by
  have hup : Function.ofDocument (strideLoop "add" "9223372036854775800") =
      .ok ⟨"stride", [], .void, some (strideBody .add 9223372036854775800)⟩ := by rfl
  have hdown : Function.ofDocument (strideLoop "sub" "-9223372036854775801") =
      .ok ⟨"stride", [], .void, some (strideBody .sub (-9223372036854775801))⟩ := by rfl
  obtain ⟨fuel, ranges, hranges, hcounter, hsuccessor, _⟩ :=
    (counting_loops_reach_half_lines hup rfl (by decide) false 100).1
      (counts_strideBody .add 9223372036854775800) (by decide)
  obtain ⟨fuel', ranges', hranges', hcounter', hsuccessor', _⟩ :=
    (counting_loops_reach_half_lines hdown rfl (by decide) false 0).2
      (counts_strideBody .sub (-9223372036854775801)) (by decide)
  exact ⟨⟨_, hup, fuel, ranges, hranges, hcounter, hsuccessor⟩,
    ⟨_, hdown, fuel', ranges', hranges', hcounter', hsuccessor'⟩⟩

end Body

end ValueRange

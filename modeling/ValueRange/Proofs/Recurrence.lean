import ValueRange.Proofs.Steps

/-!
# Runs that repeat themselves

Once every tracked instruction has been evaluated more often than the threshold, the counts no longer
matter: two states with the same intervals and the same queue go through the same evaluations from
there on. A run that comes back to such a pair of intervals and queue therefore goes round for ever.
Whether it does after so many evaluations can be computed.
-/

namespace ValueRange

theorem Options.exceeded_succ {options : Options} {visits : Nat}
    (hexceeded : options.exceeded visits = true) : options.exceeded (visits + 1) = true := by
  unfold exceeded at hexceeded ⊢
  split at hexceeded
  · simp only [decide_eq_true_eq] at hexceeded ⊢
    omega
  · exact hexceeded

theorem Options.exceeded_mono {options : Options} {visits visits' : Nat} (hle : visits ≤ visits')
    (hexceeded : options.exceeded visits = true) : options.exceeded visits' = true := by
  induction hle with
  | refl => exact hexceeded
  | step _ ih => exact exceeded_succ ih

namespace Body

/-- Every further change of a tracked instruction is widened. -/
def Saturated (body : Body) (options : Options) (state : State) : Prop :=
  ∀ id ∈ body.trackedIds, options.exceeded (state.visitsOf id + 1) = true

instance (body : Body) (options : Options) (state : State) :
    Decidable (body.Saturated options state) :=
  inferInstanceAs (Decidable (∀ id ∈ body.trackedIds, _))

/-- Two states of runs that widen every change and agree on intervals and queue. -/
structure Alike (body : Body) (options : Options) (left right : State) : Prop where
  /-- The left state is one of a run. -/
  consistent_left : body.Consistent left
  /-- The right state is one of a run. -/
  consistent_right : body.Consistent right
  /-- The left state widens every change. -/
  saturated_left : body.Saturated options left
  /-- The right state widens every change. -/
  saturated_right : body.Saturated options right
  /-- The intervals agree. -/
  store_eq : left.store = right.store
  /-- The queues agree. -/
  toList_eq : left.worklist.toList = right.worklist.toList

section Lockstep

variable {body : Body} {options : Options} {left right third before after : State} {id : Nat}
  {value : Interval}

theorem Alike.refl_left (halike : body.Alike options left right) :
    body.Alike options left left :=
  ⟨halike.consistent_left, halike.consistent_left, halike.saturated_left, halike.saturated_left,
    rfl, rfl⟩

theorem Alike.trans (hleft : body.Alike options left right)
    (hright : body.Alike options right third) : body.Alike options left third where
  consistent_left := hleft.consistent_left
  consistent_right := hright.consistent_right
  saturated_left := hleft.saturated_left
  saturated_right := hright.saturated_right
  store_eq := hleft.store_eq.trans hright.store_eq
  toList_eq := hleft.toList_eq.trans hright.toList_eq

theorem Evaluation.saturated (hevaluation : body.Evaluation options before id value after)
    (hbefore : body.Saturated options before) : body.Saturated options after := by
  intro other hother
  rw [hevaluation.visitsOf_after]
  split
  · rename_i heq
    exact Options.exceeded_succ (hbefore id (heq ▸ hother))
  · exact hbefore other hother

theorem Reaches.saturated (hreach : body.Reaches options before after)
    (hbefore : body.Saturated options before) : body.Saturated options after :=
  hreach.invariant (body.Saturated options) hbefore fun _ _ _ _ _ hevaluation =>
    hevaluation.saturated

theorem Alike.intervalOf_eq (halike : body.Alike options left right) (id : Nat) :
    left.intervalOf id = right.intervalOf id := by
  rw [State.intervalOf, State.intervalOf, halike.store_eq]

theorem Alike.revised_eq (halike : body.Alike options left right)
    (htracked : body.tracked id = true) (value : Interval) :
    left.revised options id value = right.revised options id value := by
  have hid := mem_trackedIds.mpr htracked
  unfold State.revised
  rw [halike.saturated_left id hid, halike.saturated_right id hid, halike.intervalOf_eq id]

/-- Alike states take the same step. -/
theorem Alike.exists_step {next : State} (halike : body.Alike options left right)
    (hstep : body.Step options left next) :
    ∃ next', body.Step options right next' ∧ body.Alike options next next' := by
  obtain ⟨id, value, hleft⟩ := hstep.exists_evaluation
  have hrevised := halike.revised_eq (hleft.tracked halike.consistent_left) value
  have hinterval := halike.intervalOf_eq id
  obtain ⟨rest, hpop, _⟩ := hleft.effect
  have hlist := (Worklist.toList_of_pop? hpop).1
  rw [halike.toList_eq] at hlist
  obtain ⟨rest', hpop', hrest⟩ := Worklist.exists_pop?_of_toList hlist
  have hvalue := hleft.evaluate
  rw [halike.store_eq] at hvalue
  have husers : right.revised options id value ≠ right.intervalOf id → body.KnowsUsers id := by
    rw [← hrevised, ← hinterval]
    exact hleft.users_known
  obtain ⟨next', hstep', hright⟩ := Body.exists_step options hpop' hvalue husers
  refine ⟨next', hstep', hleft.consistent halike.consistent_left,
    hright.consistent halike.consistent_right, hleft.saturated halike.saturated_left,
    hright.saturated halike.saturated_right, ?_, ?_⟩
  · rw [hleft.store_after, hright.store_after, hrevised, hinterval, halike.store_eq]
  · rw [hleft.worklist_after hpop, hright.worklist_after hpop', hrevised, hinterval]
    split
    · exact hrest.symm
    · exact (halike.consistent_left.faithful.pop hpop).toList_pushAll_eq
        (halike.consistent_right.faithful.pop hpop') hrest.symm _

end Lockstep

/-! ## Going round for ever -/

section Endless

variable {body : Body} {options : Options} {first later state : State}

theorem run_zero_of_step (hstep : body.Step options state later) :
    body.run options 0 state = none := by
  obtain ⟨id, value, hevaluation⟩ := hstep.exists_evaluation
  obtain ⟨rest, hlist⟩ := hevaluation.toList_eq
  exact run_zero_of_toList (hlist ▸ List.cons_ne_nil _ _)

theorem run_eq_none_of_progress (property : State → Prop)
    (hprogress : ∀ state, property state → ∃ next, body.Step options state next ∧ property next)
    (hstate : property state) (fuel : Nat) : body.run options fuel state = none := by
  induction fuel generalizing state with
  | zero =>
      obtain ⟨next, hstep, _⟩ := hprogress state hstate
      exact run_zero_of_step hstep
  | succ fuel ih =>
      obtain ⟨next, hstep, hnext⟩ := hprogress state hstate
      rw [run_succ_of_step hstep]
      exact ih hnext

theorem Reaches.run_eq_none (hreach : body.Reaches options state later)
    (hlater : ∀ fuel, body.run options fuel later = none) (fuel : Nat) :
    body.run options fuel state = none := by
  induction hreach using Relation.ReflTransGen.head_induction_on generalizing fuel with
  | refl => exact hlater fuel
  | head hstep _ ih =>
      cases fuel with
      | zero => exact run_zero_of_step hstep
      | succ fuel =>
          rw [run_succ_of_step hstep]
          exact ih fuel

/-- A run that leads from a state to an alike one never ends. -/
theorem Alike.run_eq_none (halike : body.Alike options first later)
    (hreach : Relation.TransGen (body.Step options) first later) (fuel : Nat) :
    body.run options fuel first = none := by
  obtain ⟨second, hsecond, hlater⟩ := Relation.TransGen.head'_iff.mp hreach
  -- The run stays alike to some state on the way from `first` to `later`.
  refine run_eq_none_of_progress
    (fun state => ∃ model, body.Alike options model state ∧ body.Reaches options model later)
    ?_ ⟨first, halike.refl_left, hreach.to_reflTransGen⟩ fuel
  rintro state ⟨model, hmodel, hway⟩
  rcases Relation.ReflTransGen.cases_head hway with rfl | ⟨next, hnext, hway⟩
  · -- The way is at its end, and starts again from `first`.
    obtain ⟨next', hstep, hnext⟩ := (halike.trans hmodel).exists_step hsecond
    exact ⟨next', hstep, second, hnext, hlater⟩
  · obtain ⟨next', hstep, hnext⟩ := hmodel.exists_step hnext
    exact ⟨next', hstep, next, hnext, hway⟩

/-- The state after so many evaluations. -/
def after? (body : Body) (options : Options) : Nat → State → Option State
  | 0, state => some state
  | steps + 1, state =>
    match body.advance? options state with
    | some (.ok next) => body.after? options steps next
    | _ => none

theorem reaches_of_after? {steps : Nat} (hafter : body.after? options steps state = some later) :
    body.Reaches options state later := by
  induction steps generalizing state with
  | zero =>
      rw [after?, Option.some.injEq] at hafter
      exact hafter ▸ .refl
  | succ steps ih =>
      rw [after?] at hafter
      split at hafter
      · rename_i next hnext
        exact .head hnext (ih hafter)
      · cases hafter

theorem transGen_of_after? {steps : Nat}
    (hafter : body.after? options (steps + 1) state = some later) :
    Relation.TransGen (body.Step options) state later := by
  rw [after?] at hafter
  split at hafter
  · rename_i next hnext
    exact .head' hnext (reaches_of_after? hafter)
  · cases hafter

/-- Whether the run, after `lead` evaluations, widens every change and returns to the same intervals
and queue within `period + 1` more. -/
def recurs (body : Body) (options : Options) (lead period : Nat) : Bool :=
  (body.after? options lead (body.initial options)).any fun first =>
    (body.after? options (period + 1) first).any fun later =>
      decide (body.Saturated options first ∧ first.store = later.store ∧
        first.worklist.toList = later.worklist.toList)

/-- A run that recurs never ends. -/
theorem run_eq_none_of_recurs {lead period : Nat} (hrecurs : body.recurs options lead period = true)
    (fuel : Nat) : body.run options fuel (body.initial options) = none := by
  simp only [recurs, Option.any_eq_true, decide_eq_true_eq] at hrecurs
  obtain ⟨first, hfirst, later, hlater, hsaturated, hstore, hlist⟩ := hrecurs
  have hlead := reaches_of_after? hfirst
  have hround := transGen_of_after? hlater
  have hconsistent := hlead.consistent (consistent_initial body options)
  have halike : body.Alike options first later :=
    ⟨hconsistent, Reaches.consistent hround.to_reflTransGen hconsistent, hsaturated,
      Reaches.saturated hround.to_reflTransGen hsaturated, hstore, hlist⟩
  exact hlead.run_eq_none (halike.run_eq_none hround) fuel

end Endless

end Body

end ValueRange

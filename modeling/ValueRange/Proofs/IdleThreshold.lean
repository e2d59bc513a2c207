import ValueRange.Proofs.Exactness
import ValueRange.Proofs.SingleSweep

/-!
# Thresholds that are never exceeded

Of its options, an evaluation reads only whether it is to be recorded and whether its number exceeds
the threshold. So two runs whose options answer alike for all numbers up to a limit go through the
same states, as long as no instruction is evaluated more often than that. A threshold that no
instruction exceeds without widening therefore changes nothing. It may equal the largest number of
evaluations, as widening starts with the first evaluation beyond the threshold.
-/

namespace ValueRange

/-- Both analyses record alike, and widen alike up to so many evaluations of an instruction. -/
structure Options.AgreeUpTo (left right : Options) (limit : Nat) : Prop where
  /-- Both record their steps, or neither does. -/
  verbose_eq : left.verbose = right.verbose
  /-- Up to the limit, both widen an evaluation, or neither does. -/
  exceeded_eq : ∀ visits ≤ limit, left.exceeded visits = right.exceeded visits

/-- Up to the threshold, an analysis is the one that never widens. -/
theorem Options.agreeUpTo_threshold (verbose : Bool) {limit threshold : Nat}
    (hthreshold : limit ≤ threshold) :
    Options.AgreeUpTo ⟨verbose, none⟩ ⟨verbose, some threshold⟩ limit where
  verbose_eq := rfl
  exceeded_eq visits hvisits := by
    have hwithin : ¬ threshold < visits := by omega
    exact (decide_eq_false hwithin).symm

section Lockstep

variable {body : Body} {left right : Options} {limit : Nat} {state : State} {id : Nat}

theorem State.record_congr (hverbose : left.verbose = right.verbose) (state : State)
    (events : List Event) : state.record left events = state.record right events := by
  unfold record
  rw [hverbose]

theorem State.revised_congr (hexceeded : left.exceeded (state.visitsOf id + 1) =
      right.exceeded (state.visitsOf id + 1)) (value : Interval) :
    state.revised left id value = state.revised right id value := by
  unfold revised
  rw [hexceeded]

namespace Body

theorem evaluationEvents_congr (body : Body)
    (hexceeded : left.exceeded (state.visitsOf id + 1) = right.exceeded (state.visitsOf id + 1))
    (value : Interval) :
    body.evaluationEvents left state id value = body.evaluationEvents right state id value := by
  simp only [evaluationEvents, hexceeded, State.revised_congr hexceeded]

theorem initial_congr (body : Body) (hverbose : left.verbose = right.verbose) :
    body.initial left = body.initial right :=
  State.record_congr hverbose _ _

/-- An evaluation within the limit has the same effect for both options. -/
theorem stateAfter_congr (hagree : left.AgreeUpTo right limit)
    (hvisits : state.visitsOf id + 1 ≤ limit) (value : Interval) :
    body.stateAfter left state id value = body.stateAfter right state id value := by
  have hexceeded := hagree.exceeded_eq _ hvisits
  simp only [stateAfter, State.revised_congr hexceeded, body.evaluationEvents_congr hexceeded,
    State.record_congr hagree.verbose_eq]

/-- A run that stays within the limit is the same for both options. -/
theorem run_eq_of_visitsOf_le (hagree : left.AgreeUpTo right limit)
    (hstate : body.Consistent state) {fuel : Nat} {final : State}
    (hrun : body.run left fuel state = some (.ok final))
    (hvisits : ∀ id, body.tracked id = true → final.visitsOf id ≤ limit) :
    body.run right fuel state = some (.ok final) := by
  induction fuel generalizing state with
  | zero => exact hrun
  | succ fuel ih =>
      rw [run] at hrun
      split at hrun
      · rename_i hnone
        cases hrun
        exact run_of_toList_eq_nil (advance?_eq_none_iff.mp hnone) _
      · cases hrun
      · rename_i next hnext
        obtain ⟨id, rest, value, hpop, hvalue, husers, rfl⟩ := step_iff.mp hnext
        have hevaluation := evaluation_stateAfter hpop hvalue husers
        -- The evaluation is counted, and the counts never fall.
        have hcounted : state.visitsOf id + 1 ≤ limit := by
          have hfinal := hvisits id (hevaluation.tracked hstate)
          rw [(counts_of_run hrun).1, hevaluation.visitsOf_self] at hfinal
          omega
        have hsame : body.stateAfter left { state with worklist := rest } id value =
            body.stateAfter right { state with worklist := rest } id value :=
          @stateAfter_congr body left right limit { state with worklist := rest } id hagree hcounted
            value
        rw [State.revised_congr (hagree.exceeded_eq _ hcounted)] at husers
        rw [run_succ_of_step (step_iff.mpr ⟨id, rest, value, hpop, hvalue, husers, rfl⟩), ← hsame]
        exact ih (hevaluation.consistent hstate) hrun

end Body

end Lockstep

namespace Function

/-- If the analysis without widening ends and evaluates no tracked instruction more often than
`limit`, the analysis with any threshold from `limit` on has the same outcome within the same fuel.
The intervals, the number of evaluations and the record are the same, and with them the report and
the trace. -/
theorem ranges?_eq_of_threshold_not_exceeded {function : Function} {verbose : Bool}
    {fuel limit : Nat} {ranges : Ranges}
    (hranges : function.ranges? fuel ⟨verbose, none⟩ = some (.ok ranges))
    (hcounts : ∀ body, function.body = some body → ∀ id, body.tracked id = true →
      (body.popped ⟨verbose, none⟩ fuel (body.initial ⟨verbose, none⟩)).count id ≤ limit)
    {threshold : Nat} (hthreshold : limit ≤ threshold) :
    function.ranges? fuel ⟨verbose, some threshold⟩ = some (.ok ranges) := by
  cases hbody : function.body with
  | none =>
      rw [ranges?, hbody] at hranges ⊢
      exact hranges
  | some body =>
      have hagree := Options.agreeUpTo_threshold verbose hthreshold
      rw [ranges?_of_body hbody, Option.map_eq_some_iff] at hranges
      obtain ⟨outcome, hrun, houtcome⟩ := hranges
      cases outcome with
      | error fault => cases houtcome
      | ok final =>
          have hvisits : ∀ id, body.tracked id = true → final.visitsOf id ≤ limit := by
            intro id htracked
            rw [(Body.counts_of_run hrun).1, Body.visitsOf_initial, Nat.add_zero]
            exact hcounts body hbody id htracked
          have hsame := Body.run_eq_of_visitsOf_le hagree (Body.consistent_initial body _) hrun
            hvisits
          rw [ranges?_of_body hbody, ← body.initial_congr hagree.verbose_eq, hsame]
          exact congrArg some houtcome

/-- In the chain of choices `x` is evaluated four times. A verbose analysis with threshold four is
the one without widening; with threshold three, the fourth evaluation of `x` is widened. -/
theorem reversedChain_threshold_four :
    (∀ id, Body.reversedBody.tracked id = true →
      (Body.reversedBody.popped ⟨true, none⟩ 20 (Body.reversedBody.initial ⟨true, none⟩)).count id ≤
        4) ∧
      (∃ ranges, Body.reversedFunction.ranges? 20 ⟨true, none⟩ = some (.ok ranges) ∧
        Body.reversedFunction.ranges? 20 ⟨true, some 4⟩ = some (.ok ranges) ∧
        ranges.store.get? 0 = some ⟨.finite 0, .finite 3⟩) ∧
      ∃ ranges, Body.reversedFunction.ranges? 20 ⟨true, some 3⟩ = some (.ok ranges) ∧
        ranges.store.get? 0 = some ⟨.finite 0, .posInf⟩ := by
  have hcounts : ∀ id ∈ Body.reversedBody.trackedIds,
      (Body.reversedBody.popped ⟨true, none⟩ 20 (Body.reversedBody.initial ⟨true, none⟩)).count id ≤
        4 := by decide
  have htracked : ∀ id, Body.reversedBody.tracked id = true →
      (Body.reversedBody.popped ⟨true, none⟩ 20 (Body.reversedBody.initial ⟨true, none⟩)).count id ≤
        4 := fun id hid => hcounts id (Body.mem_trackedIds.mpr hid)
  obtain ⟨ranges, hranges, hinterval⟩ : ∃ ranges,
      Body.reversedFunction.ranges? 20 ⟨true, none⟩ = some (.ok ranges) ∧
        ranges.store.get? 0 = some ⟨.finite 0, .finite 3⟩ := ⟨_, rfl, rfl⟩
  refine ⟨htracked, ⟨ranges, hranges, ?_, hinterval⟩, _, rfl, rfl⟩
  refine ranges?_eq_of_threshold_not_exceeded hranges (fun body hbody => ?_) (Nat.le_refl 4)
  cases hbody
  exact htracked

end Function

end ValueRange

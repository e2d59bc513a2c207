import ValueRange.Proofs.Potential
import ValueRange.Proofs.Stability

/-!
# The least solution

A solution is a store whose intervals contain what the instructions evaluate to. Without widening,
and as long as no end overflows inward, the iteration computes the least one. Evaluation is monotone
wherever it does not overflow inward, and the iteration only ever uses it there. So every stored
interval is upheld: in any larger store the instruction still evaluates to at least that. This makes
the run ascend, and as the ends are 64-bit integers, it ends.
-/

namespace ValueRange

namespace Interval

/-- The room between the ends of an interval and the infinities on their sides. -/
def room (interval : Interval) : Nat :=
  (interval.lower.rank - Bound.negInf.rank).toNat + (Bound.posInf.rank - interval.upper.rank).toNat

theorem room_lt_of_lt {left right : Interval} (hlt : left < right) : right.room < left.room := by
  have hlower := Bound.le_iff_rank.mp hlt.le.1
  have hupper := Bound.le_iff_rank.mp hlt.le.2
  have hends : ¬ (left.lower.rank = right.lower.rank ∧ left.upper.rank = right.upper.rank) := by
    rintro ⟨heqLower, heqUpper⟩
    exact hlt.ne (Interval.ext (Bound.rank_injective heqLower) (Bound.rank_injective heqUpper))
  have hlow := Bound.le_iff_rank.mp right.lower.negInf_le
  have hhigh := Bound.le_iff_rank.mp right.upper.le_posInf
  unfold room
  omega

end Interval

namespace Body

/-- Every operator and predicate is modelled. -/
def Supported (body : Body) : Prop := ∀ node ∈ body.nodes, node.instruction.offending = false

instance (body : Body) : Decidable body.Supported :=
  inferInstanceAs (Decidable (∀ node ∈ body.nodes, _))

theorem Supported.exists_evaluate {body : Body} (hsupported : body.Supported) {id : Nat}
    (htracked : body.tracked id = true) (store : Store Interval) :
    ∃ value, body.evaluate id store = .ok value := by
  obtain ⟨node, hnode, htracked⟩ := tracked_iff.mp htracked
  obtain ⟨value, hvalue⟩ := Instruction.exists_transfer_eq_ok htracked
    (hsupported node (Array.mem_of_getElem? hnode)) store
  exact ⟨value, evaluate_eq_ok_iff.mpr ⟨node, hnode, hvalue⟩⟩

/-- The next evaluation overflows inward. -/
def OverflowsInward (body : Body) (state : State) : Prop :=
  ∃ entry ∈ state.worklist.pop?, ∃ node ∈ body.node? entry.1,
    node.instruction.OverflowsInward state.store

instance (body : Body) (state : State) : Decidable (body.OverflowsInward state) :=
  inferInstanceAs (Decidable (∃ entry ∈ state.worklist.pop?, ∃ node ∈ body.node? entry.1, _))

/-- In any larger store, an instruction evaluates to at least its interval in this one. -/
def Upheld (body : Body) (store : Store Interval) : Prop :=
  ∀ {id interval larger value}, store.get? id = some interval → store.Within larger →
    larger.WellFormed → body.evaluate id larger = .ok value → interval ≤ value

section Iteration

variable {body : Body} {options : Options} {before after state : State} {id : Nat}
  {value : Interval}

/-- Where the evaluation does not overflow inward, its outcome is below that in a larger store. -/
theorem Evaluation.le_evaluate (hevaluation : body.Evaluation options before id value after)
    (hbefore : body.Consistent before) (hinward : ¬ body.OverflowsInward before)
    {larger : Store Interval} {bound : Interval} (hwithin : before.store.Within larger)
    (hlarger : larger.WellFormed) (hbound : body.evaluate id larger = .ok bound) :
    value ≤ bound := by
  obtain ⟨rest, hpop, _⟩ := hevaluation.effect
  obtain ⟨node, hnode, hvalue⟩ := evaluate_eq_ok_iff.mp hevaluation.evaluate
  obtain ⟨node', hnode', hbound⟩ := evaluate_eq_ok_iff.mp hbound
  have heq : node' = node := Option.some.inj (hnode'.symm.trans hnode)
  subst heq
  refine Instruction.transfer_le_transfer hwithin hbefore.wellFormed hlarger ?_ hvalue hbound
  intro hoverflow
  exact hinward ⟨(id, rest), hpop, node', hnode, hoverflow⟩

/-- If the outcome contains the interval it replaces, the store only grows. -/
theorem Evaluation.within_after (hevaluation : body.Evaluation options before id value after)
    (hbefore : body.Consistent before)
    (hle : before.intervalOf id ≤ before.revised options id value) :
    before.store.Within after.store := by
  rw [hevaluation.store_after]
  split
  · exact .refl _
  · exact .insert (hbefore.get?_eq_some (hevaluation.tracked hbefore)) hle

theorem Evaluation.intervalOf_le (hevaluation : body.Evaluation options before id value after)
    (hbefore : body.Consistent before) (hupheld : body.Upheld before.store) :
    before.intervalOf id ≤ value :=
  hupheld (hbefore.get?_eq_some (hevaluation.tracked hbefore)) (.refl _) hbefore.wellFormed
    hevaluation.evaluate

theorem upheld_initial (body : Body) (options : Options) :
    body.Upheld (body.initial options).store := by
  intro id interval larger value hinterval _ _ _
  rw [get?_initial] at hinterval
  split at hinterval
  · rw [← Option.some.inj hinterval]
    exact Interval.empty_le _
  · cases hinterval

theorem Evaluation.upheld (hwidening : options.widening = none)
    (hevaluation : body.Evaluation options before id value after)
    (hbefore : body.Consistent before) (hinward : ¬ body.OverflowsInward before)
    (hupheld : body.Upheld before.store) : body.Upheld after.store := by
  have hrevised := before.revised_of_widening_eq_none hwidening id value
  have hle := hevaluation.intervalOf_le hbefore hupheld
  rw [← hrevised] at hle
  have hgrown := hevaluation.within_after hbefore hle
  intro other interval larger bound hinterval hwithin hlarger hbound
  rw [hevaluation.get?_after hbefore, hrevised] at hinterval
  split at hinterval
  · -- The new interval comes from a smaller store, where nothing overflowed inward.
    rename_i hother
    rw [← Option.some.inj hinterval]
    rw [hother] at hbound
    exact hevaluation.le_evaluate hbefore hinward (hgrown.trans hwithin) hlarger hbound
  · exact hupheld hinterval (hgrown.trans hwithin) hlarger hbound

/-- A solution above the store before an evaluation is above the store after it. -/
theorem Evaluation.within_solution (hwidening : options.widening = none)
    (hevaluation : body.Evaluation options before id value after)
    (hbefore : body.Consistent before) (hinward : ¬ body.OverflowsInward before)
    {solution : Store Interval} (hsolution : body.Solution solution)
    (hwithin : before.store.Within solution) : after.store.Within solution where
  isSome_eq other := by
    rw [(hevaluation.consistent hbefore).isSome_get?, hsolution.isSome_get?]
  le {other low high} hlow hhigh := by
    rw [hevaluation.get?_after hbefore, before.revised_of_widening_eq_none hwidening] at hlow
    split at hlow
    · rename_i hother
      subst hother
      obtain ⟨stored, bound, hstored, hbound, hle⟩ :=
        hsolution.evaluate_le other (hevaluation.tracked hbefore)
      rw [← Option.some.inj hlow, ← Option.some.inj (hstored.symm.trans hhigh)]
      calc value
          ≤ bound := hevaluation.le_evaluate hbefore hinward hwithin hsolution.wellFormed hbound
        _ ≤ stored := hle
    · exact hwithin.le hlow hhigh

/-- No evaluation of the run from the initial state on overflows inward. -/
def StaysInBounds (body : Body) (options : Options) : Prop :=
  ∀ state, body.Reaches options (body.initial options) state → ¬ body.OverflowsInward state

theorem StaysInBounds.upheld (hbounds : body.StaysInBounds options)
    (hwidening : options.widening = none)
    (hreach : body.Reaches options (body.initial options) state) : body.Upheld state.store := by
  refine hreach.invariant (fun state => body.Upheld state.store) (upheld_initial body options) ?_
  intro before id value after hbefore hevaluation
  exact hevaluation.upheld hwidening (hbefore.consistent (consistent_initial body options))
    (hbounds before hbefore)

theorem StaysInBounds.ascendsFrom (hbounds : body.StaysInBounds options)
    (hwidening : options.widening = none) :
    body.AscendsFrom options (body.initial options) := by
  intro before after hreach hstep other
  obtain ⟨id, value, hevaluation⟩ := hstep.exists_evaluation
  have hbefore := hreach.consistent (consistent_initial body options)
  rw [hevaluation.intervalOf_after hbefore, before.revised_of_widening_eq_none hwidening]
  split
  · rename_i hother
    rw [hother]
    exact hevaluation.intervalOf_le hbefore (hbounds.upheld hwidening hreach)
  · exact le_refl _

theorem StaysInBounds.within_solution (hbounds : body.StaysInBounds options)
    (hwidening : options.widening = none) {solution : Store Interval} (hsolution : body.Solution solution)
    (hreach : body.Reaches options (body.initial options) state) :
    state.store.Within solution := by
  refine hreach.invariant (fun state => state.store.Within solution) ⟨?_, ?_⟩ ?_
  · intro id
    rw [(consistent_initial body options).isSome_get?, hsolution.isSome_get?]
  · intro id low high hlow _
    rw [get?_initial] at hlow
    split at hlow
    · rw [← Option.some.inj hlow]
      exact Interval.empty_le _
    · cases hlow
  · intro before id value after hbefore hevaluation
    exact hevaluation.within_solution hwidening (hbefore.consistent (consistent_initial body options))
      (hbounds before hbefore) hsolution

/-- No evaluation faults if everything is supported. -/
theorem Supported.run_ne_error (hsupported : body.Supported) (hexact : body.UsesExact)
    (hstate : body.Consistent state) (fuel : Nat) (fault : Fault) :
    body.run options fuel state ≠ some (.error fault) := by
  induction fuel generalizing state with
  | zero =>
      rw [run]
      split <;> simp
  | succ fuel ih =>
      cases hpop : state.worklist.pop? with
      | none =>
          rw [run, advance?_eq_none_iff.mpr (Worklist.pop?_eq_none_iff.mp hpop)]
          simp
      | some entry =>
          obtain ⟨id, rest⟩ := entry
          have hpending : id ∈ state.worklist.toList := by
            rw [(Worklist.toList_of_pop? hpop).1]
            exact List.mem_cons_self
          obtain ⟨value, hvalue⟩ :=
            hsupported.exists_evaluate (hstate.pending_tracked id hpending) state.store
          obtain ⟨next, hstep, hevaluation⟩ :=
            exists_step options hpop hvalue fun _ => hexact.knowsUsers id
          rw [run_succ_of_step hstep]
          exact ih (hevaluation.consistent hstate)

theorem StaysInBounds.exists_ranges (hbounds : body.StaysInBounds options)
    (hwidening : options.widening = none) (hsupported : body.Supported) (hexact : body.UsesExact)
    {function : Function} (hbody : function.body = some body) :
    ∃ fuel ranges, function.ranges? fuel options = some (.ok ranges) := by
  have hinitial := consistent_initial body options
  obtain ⟨fuel, hfuel⟩ :
      ∃ fuel, (body.run options fuel (body.initial options)).isSome = true :=
    ⟨_, (hbounds.ascendsFrom hwidening).isSome_run hinitial (fun _ interval => interval.room)
      (fun _ _ => Nat.le_refl _) (fun _ _ _ hlt => Interval.room_lt_of_lt hlt) (Nat.le_refl _)⟩
  obtain ⟨outcome, hrun⟩ := Option.isSome_iff_exists.mp hfuel
  cases outcome with
  | error fault => exact absurd hrun (hsupported.run_ne_error hexact hinitial fuel fault)
  | ok final =>
      have hranges := Function.ranges?_of_body hbody fuel options
      rw [hrun] at hranges
      exact ⟨fuel, _, hranges⟩

end Iteration

/-- Without widening, if everything is supported and nothing overflows inward, the run ascends and
ends, and the ranges are the least solution. -/
theorem least_solution_without_widening {document : Document.Function} {function : Function}
    {body : Body} {options : Options} (hfunction : Function.ofDocument document = .ok function)
    (hbody : function.body = some body) (hsupported : body.Supported)
    (hwidening : options.widening = none) (hbounds : body.StaysInBounds options) :
    body.AscendsFrom options (body.initial options) ∧
      (∃ fuel ranges, function.ranges? fuel options = some (.ok ranges)) ∧
      ∀ fuel ranges, function.ranges? fuel options = some (.ok ranges) →
        body.Solution ranges.store ∧
          ∀ store, body.Solution store → ranges.store.Within store := by
  have hexact := Function.usesExact_of_ofDocument hfunction hbody
  refine ⟨hbounds.ascendsFrom hwidening,
    hbounds.exists_ranges hwidening hsupported hexact hbody, ?_⟩
  intro fuel ranges hranges
  refine ⟨solution_of_ranges? hexact hbody hranges, fun store hstore => ?_⟩
  obtain ⟨final, hreach, _, heq⟩ := Function.exists_final_of_ranges? hbody hranges
  rw [heq]
  exact hbounds.within_solution hwidening hstore hreach

/-! ## A loop without growth -/

open Document in
/-- A loop that swaps two values, `a = phi [1], [b]` and `b = phi [5], [a]`, and takes their
difference `d = sub b, a`. -/
def swappingLoop : Document.Function :=
  let ty : TypeExpr := .int 32
  let number (value : String) : Operand := .constant ⟨ty, .int value⟩
  { name := "swap"
    params := []
    ret := .void
    blocks :=
      [⟨0, none, [], ⟨.void, 0, none, .goto 1⟩⟩,
        ⟨1, none,
          [⟨ty, 1, some "a", .phi [⟨number "1", 0⟩, ⟨.instruction ty 2, 1⟩]⟩,
            ⟨ty, 2, some "b", .phi [⟨number "5", 0⟩, ⟨.instruction ty 1, 1⟩]⟩,
            ⟨ty, 3, some "d", .binary "sub" (.instruction ty 2) (.instruction ty 1)⟩],
          ⟨.void, 4, none, .goto 1⟩⟩] }

/-- The checked body of the swapping loop. -/
def swappingBody : Body :=
  let ty : Ty := .int 32
  { blocks := [⟨0, none, [], .goto 1⟩, ⟨1, none, [0, 1, 2], .goto 1⟩]
    nodes :=
      #[⟨1, some "a", ty, .phi [(.constant (.int 32 1) ty, 0), (.register 1 ty, 1)]⟩,
        ⟨2, some "b", ty, .phi [(.constant (.int 32 5) ty, 0), (.register 0 ty, 1)]⟩,
        ⟨3, some "d", ty, .binary .sub (.register 1 ty) (.register 0 ty)⟩]
    uses := ⟨#[[2, 1], [2, 0], []]⟩ }

/-- The checked swapping loop. -/
def swappingFunction : Function := ⟨"swap", [], .void, some swappingBody⟩

/-- The ranges of the swapping loop without widening. -/
def swappingRanges : Ranges :=
  ⟨⟨[(0, ⟨.finite 1, .finite 5⟩), (1, ⟨.finite 1, .finite 5⟩), (2, ⟨.finite (-4), .finite 4⟩)],
    by decide⟩, 6, []⟩

theorem staysInBounds_swappingBody : swappingBody.StaysInBounds ⟨false, none⟩ := by
  have hpasses : swappingBody.passes ⟨false, none⟩
      (fun state => decide (¬ swappingBody.OverflowsInward state)) 20
      (swappingBody.initial ⟨false, none⟩) = true := rfl
  intro state hreach
  exact of_decide_eq_true (test_of_passes hpasses hreach)

/-- The ranges of the swapping loop are its least solution. -/
theorem swappingLoop_least_solution :
    Function.ofDocument swappingLoop = .ok swappingFunction ∧
      swappingFunction.ranges? 20 ⟨false, none⟩ = some (.ok swappingRanges) ∧
      swappingBody.Solution swappingRanges.store ∧
      ∀ store, swappingBody.Solution store → swappingRanges.store.Within store :=
  have hfunction : Function.ofDocument swappingLoop = .ok swappingFunction := rfl
  have hranges : swappingFunction.ranges? 20 ⟨false, none⟩ = some (.ok swappingRanges) := rfl
  ⟨hfunction, hranges, (least_solution_without_widening hfunction rfl (by decide) rfl
    staysInBounds_swappingBody).2.2 20 swappingRanges hranges⟩

end Body

end ValueRange

import Mathlib.Algebra.BigOperators.Ring.List
import Mathlib.Algebra.Order.BigOperators.Group.List
import Mathlib.Algebra.Order.Group.Nat
import Mathlib.Algebra.Ring.Nat
import Mathlib.Data.List.Perm.Subperm
import Mathlib.Data.Nat.Cast.Basic
import ValueRange.Proofs.Steps

/-!
# A potential for the fixpoint iteration

Every tracked instruction has a credit, a bound on how often its interval can still change. The
potential of a state is the number of pending instructions plus, for each instruction, its credit
once for each of its tracked users. An evaluation takes one instruction off the worklist, and a
change pays for the users it queues. So the potential falls with every evaluation, and it bounds the
length of the run.
-/

namespace ValueRange

namespace Worklist

/-- Pushing adds at most the weights of the pushed nodes. -/
theorem sum_map_toList_pushAll_le (worklist : Worklist) (ids : List Nat) (weight : Nat → Nat) :
    ((worklist.pushAll ids).toList.map weight).sum ≤
      (worklist.toList.map weight).sum + (ids.map weight).sum := by
  unfold pushAll
  induction ids generalizing worklist with
  | nil => simp
  | cons id ids ih =>
      have hrest := ih (worklist.push id)
      have hfirst : ((worklist.push id).toList.map weight).sum ≤
          (worklist.toList.map weight).sum + weight id := by
        rw [toList_push]
        split <;> simp
      rw [List.foldl_cons, List.map_cons, List.sum_cons]
      omega

theorem length_toList_pushAll_le (worklist : Worklist) (ids : List Nat) :
    (worklist.pushAll ids).toList.length ≤ worklist.toList.length + ids.length := by
  simpa using worklist.sum_map_toList_pushAll_le ids fun _ => 1

end Worklist

namespace Body

/-- The number of pairs of a tracked instruction and a tracked user of it. -/
def useCount (body : Body) : Nat :=
  (body.trackedIds.map fun id => (body.trackedUsers id).length).sum

/-- The pending instructions and the users that the remaining changes can queue. -/
def potential (body : Body) (credit : Nat → Nat) (worklist : Worklist) : Nat :=
  worklist.toList.length +
    (body.trackedIds.map fun id => credit id * (body.trackedUsers id).length).sum

theorem sum_map_add_le {ids : List Nat} {low high : Nat → Nat} {id slack : Nat} (hid : id ∈ ids)
    (hle : ∀ other ∈ ids, low other ≤ high other) (hslack : low id + slack ≤ high id) :
    (ids.map low).sum + slack ≤ (ids.map high).sum := by
  induction ids with
  | nil => cases hid
  | cons first rest ih =>
      obtain ⟨hfirst, hrest⟩ := List.forall_mem_cons.mp hle
      rw [List.map_cons, List.map_cons, List.sum_cons, List.sum_cons]
      rcases List.mem_cons.mp hid with rfl | hid
      · have hsum : (rest.map low).sum ≤ (rest.map high).sum := List.sum_le_sum hrest
        omega
      · have hsum := ih hid hrest
        omega

section Potential

variable {body : Body} {options : Options} {before after state : State} {id : Nat}
  {value : Interval}

theorem Consistent.length_worklist_le (hstate : body.Consistent state) :
    state.worklist.toList.length ≤ body.trackedIds.length := by
  apply List.Subperm.length_le
  apply List.Nodup.subperm hstate.faithful.nodup
  intro id hid
  exact mem_trackedIds.mpr (hstate.pending_tracked id hid)

theorem Consistent.potential_le {credit : Nat → Nat} {bound : Nat} (hstate : body.Consistent state)
    (hcredit : ∀ id, credit id ≤ bound) :
    body.potential credit state.worklist ≤ body.trackedIds.length + bound * body.useCount := by
  have hworklist := hstate.length_worklist_le
  have hsum : (body.trackedIds.map fun id => credit id * (body.trackedUsers id).length).sum ≤
      (body.trackedIds.map fun id => bound * (body.trackedUsers id).length).sum :=
    List.sum_le_sum fun id _ => Nat.mul_le_mul_right _ (hcredit id)
  rw [List.sum_map_mul_left] at hsum
  unfold potential useCount
  omega

/-- An evaluation lowers the potential if no credit rises and a change costs credit. -/
theorem Evaluation.potential_lt {low high : Nat → Nat}
    (hevaluation : body.Evaluation options before id value after)
    (hbefore : body.Consistent before) (hle : ∀ other, low other ≤ high other)
    (hlt : before.revised options id value ≠ before.intervalOf id → low id < high id) :
    body.potential low after.worklist < body.potential high before.worklist := by
  have htracked := mem_trackedIds.mpr (hevaluation.tracked hbefore)
  have hterm : ∀ other ∈ body.trackedIds,
      low other * (body.trackedUsers other).length ≤
        high other * (body.trackedUsers other).length :=
    fun other _ => Nat.mul_le_mul_right _ (hle other)
  unfold potential
  obtain ⟨rest, hpop, hcases⟩ := hevaluation.effect
  have hlength : before.worklist.toList.length = rest.toList.length + 1 := by
    rw [(Worklist.toList_of_pop? hpop).1, List.length_cons]
  rcases hcases with ⟨_, _, hworklist⟩ | ⟨hnew, _, hworklist⟩
  · rw [hworklist]
    have hsum := List.sum_le_sum hterm
    omega
  · rw [hworklist]
    have hqueued := rest.length_toList_pushAll_le (body.trackedUsers id)
    -- One unit of credit is worth as much as all the users that the change can queue.
    have hpaid : low id * (body.trackedUsers id).length + (body.trackedUsers id).length ≤
        high id * (body.trackedUsers id).length := by
      rw [← Nat.succ_mul]
      exact Nat.mul_le_mul_right _ (hlt hnew)
    have hsum := sum_map_add_le htracked hterm hpaid
    omega

/-- A run ends if every evaluation lowers a measure that counts the pending instructions. -/
theorem isSome_run_of_measure (measure : State → Nat) {fuel : Nat}
    (hpending : ∀ later, later.worklist.toList.length ≤ measure later)
    (hstep : ∀ before after, body.Reaches options state before → body.Step options before after →
      measure after < measure before)
    (hfuel : measure state ≤ fuel) : (body.run options fuel state).isSome = true := by
  induction fuel generalizing state with
  | zero =>
      have hlength : state.worklist.toList.length = 0 := by
        have := hpending state
        omega
      rw [run, if_pos (Worklist.isEmpty_iff.mpr (List.eq_nil_of_length_eq_zero hlength))]
      rfl
  | succ fuel ih =>
      rw [run]
      split
      · rfl
      · rfl
      · rename_i next hnext
        have hlt := hstep state next .refl hnext
        refine ih (fun before after hreach => hstep before after (.head hnext hreach)) ?_
        omega

/-- No evaluation of the run from here on takes anything out of an interval. -/
def AscendsFrom (body : Body) (options : Options) (state : State) : Prop :=
  ∀ before after, body.Reaches options state before → body.Step options before after →
    ∀ id, before.intervalOf id ≤ after.intervalOf id

/-- An ascending run ends if the credit of an instruction, computed from the number of its
evaluations and its interval, never rises and falls whenever the interval grows. -/
theorem AscendsFrom.isSome_run {fuel : Nat} (hascends : body.AscendsFrom options state)
    (hstate : body.Consistent state) (credit : Nat → Interval → Nat)
    (hkeep : ∀ visits interval, credit (visits + 1) interval ≤ credit visits interval)
    (hpaid : ∀ (before : State) id value,
      before.intervalOf id < before.revised options id value →
      credit (before.visitsOf id + 1) (before.revised options id value) <
        credit (before.visitsOf id) (before.intervalOf id))
    (hfuel : body.potential (fun id => credit (state.visitsOf id) (state.intervalOf id))
      state.worklist ≤ fuel) :
    (body.run options fuel state).isSome = true := by
  refine isSome_run_of_measure
    (fun later => body.potential (fun id => credit (later.visitsOf id) (later.intervalOf id))
      later.worklist)
    (fun later => Nat.le_add_right _ _) ?_ hfuel
  intro before after hreach hstep
  obtain ⟨id, value, hevaluation⟩ := hstep.exists_evaluation
  have hbefore := hreach.consistent hstate
  have hvisits := hevaluation.visitsOf_after
  have hinterval := hevaluation.intervalOf_after hbefore
  have hgrows : before.revised options id value ≠ before.intervalOf id →
      credit (before.visitsOf id + 1) (before.revised options id value) <
        credit (before.visitsOf id) (before.intervalOf id) := by
    intro hnew
    have hle := hascends before after hreach hstep id
    rw [hinterval, if_pos rfl] at hle
    exact hpaid before id value (lt_of_le_of_ne hle (Ne.symm hnew))
  refine hevaluation.potential_lt hbefore ?_ ?_
  · intro other
    rw [hvisits, hinterval]
    by_cases hother : other = id
    · rw [if_pos hother, if_pos hother, hother]
      by_cases hnew : before.revised options id value = before.intervalOf id
      · rw [hnew]
        exact hkeep _ _
      · exact (hgrows hnew).le
    · rw [if_neg hother, if_neg hother]
  · intro hnew
    rw [hvisits, hinterval, if_pos rfl, if_pos rfl]
    exact hgrows hnew

end Potential

end Body

end ValueRange

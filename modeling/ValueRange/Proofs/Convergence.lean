import ValueRange.Proofs.Potential
import ValueRange.Proofs.Recurrence
import ValueRange.Proofs.Stability

/-!
# Convergence with a widening threshold

With a threshold an ascending run ends soon: once an instruction has been evaluated so often, its
interval grows at most twice, each time by an end that moves to infinity. So the analysis of a
function ends exactly if its run ascends from some state on. It also ends, ascending or not, if the
instructions can be ranked such that users rank below what they use.

Widening compares with the previous interval but does not join with it. An interval may therefore
shrink again, and a round of instructions can pass such changes on without end. This happens with
the default threshold in the loop at the end.
-/

namespace ValueRange

namespace Interval

/-- The number of ends that are not at the infinity on their side. -/
def openEnds (interval : Interval) : Nat :=
  (if interval.lower = .negInf then 0 else 1) + if interval.upper = .posInf then 0 else 1

theorem openEnds_le_two (interval : Interval) : interval.openEnds ≤ 2 := by
  unfold openEnds
  split <;> split <;> omega

/-- A larger interval has no more open ends. -/
theorem openEnds_le_of_le {left right : Interval} (hle : left ≤ right) :
    right.openEnds ≤ left.openEnds := by
  have hlower : left.lower = .negInf → right.lower = .negInf := fun heq =>
    Bound.le_negInf.mp (heq ▸ hle.1)
  have hupper : left.upper = .posInf → right.upper = .posInf := fun heq =>
    Bound.posInf_le.mp (heq ▸ hle.2)
  unfold openEnds
  grind

/-- Widening that lets an interval grow closes an open end. -/
theorem openEnds_widen_lt {current previous : Interval} (hprevious : previous ≠ empty)
    (hlt : previous < current.widen previous) :
    (current.widen previous).openEnds < previous.openEnds := by
  obtain ⟨hlower, hupper⟩ := widen_ends hprevious hlt.le
  rcases hlower with hlower | ⟨hlower, hopen⟩
  · rcases hupper with hupper | ⟨hupper, hopen⟩
    · exact absurd (Interval.ext hlower.symm hupper.symm) hlt.ne
    · simp [openEnds, hlower, hupper, hopen]
  · rcases hupper with hupper | ⟨hupper, hopen'⟩
    · simp [openEnds, hlower, hupper, hopen]
    · simp [openEnds, hlower, hupper, hopen, hopen']

/-- How often an interval can still grow with a threshold `limit` after so many evaluations. An
empty interval has both ends open, but it is not widened when it first gets a value. -/
def credit (limit visits : Nat) (interval : Interval) : Nat :=
  if interval = empty then max (limit - visits) 1 + 2 else limit - visits + interval.openEnds

theorem credit_le (limit visits : Nat) (interval : Interval) :
    interval.credit limit visits ≤ max limit 1 + 2 := by
  have hends := interval.openEnds_le_two
  unfold credit
  split <;> omega

theorem credit_succ_le (limit visits : Nat) (interval : Interval) :
    interval.credit limit (visits + 1) ≤ interval.credit limit visits := by
  unfold credit
  split <;> omega

end Interval

/-- With a threshold, growing costs credit. -/
theorem State.credit_revised_lt {options : Options} {limit : Nat}
    (hwidening : options.widening = some limit) {state : State} {id : Nat} {value : Interval}
    (hlt : state.intervalOf id < state.revised options id value) :
    (state.revised options id value).credit limit (state.visitsOf id + 1) <
      (state.intervalOf id).credit limit (state.visitsOf id) := by
  have hgrown : state.revised options id value ≠ .empty := by
    intro hempty
    rw [hempty] at hlt
    exact absurd (Interval.empty_le _) hlt.not_ge
  have hends := (state.revised options id value).openEnds_le_two
  by_cases hold : state.intervalOf id = .empty
  · simp only [Interval.credit, if_pos hold, if_neg hgrown]
    omega
  · simp only [Interval.credit, if_neg hold, if_neg hgrown]
    have hle := Interval.openEnds_le_of_le hlt.le
    by_cases hexceeded : limit < state.visitsOf id + 1
    · have hrevised : state.revised options id value = value.widen (state.intervalOf id) := by
        have hvalue : value ≠ state.intervalOf id := fun heq =>
          hlt.ne (by simp [State.revised, heq])
        simp [State.revised, Options.exceeded, hwidening, hexceeded, hvalue]
      rw [hrevised] at hlt ⊢
      have hclosed := Interval.openEnds_widen_lt hold hlt
      omega
    · omega

namespace Body

section Threshold

variable {body : Body} {options : Options} {limit : Nat} {state : State}

/-- An ascending run takes at most one evaluation for each instruction and, for each use, two more
than the threshold. -/
theorem AscendsFrom.isSome_run_of_widening (hwidening : options.widening = some limit)
    (hascends : body.AscendsFrom options state) (hstate : body.Consistent state) :
    (body.run options (body.trackedIds.length + (max limit 1 + 2) * body.useCount) state).isSome =
      true := by
  refine hascends.isSome_run hstate (fun visits interval => interval.credit limit visits)
    (fun visits interval => interval.credit_succ_le limit visits)
    (fun before id value hlt => State.credit_revised_lt hwidening hlt) ?_
  exact hstate.potential_le fun id => (state.intervalOf id).credit_le limit (state.visitsOf id)

/-- A state without a next one ascends, having nothing left to do. -/
theorem ascendsFrom_of_halted (hhalted : ∀ next, ¬ body.Step options state next) :
    body.AscendsFrom options state := by
  intro before after hreach hstep
  rcases Relation.ReflTransGen.cases_head hreach with rfl | ⟨next, hnext, _⟩
  · exact absurd hstep (hhalted after)
  · exact absurd hnext (hhalted next)

/-- A run ends if and only if it ascends from some state on. -/
theorem exists_isSome_run_iff (hwidening : options.widening = some limit) :
    (∃ fuel, (body.run options fuel (body.initial options)).isSome = true) ↔
      ∃ state, body.Reaches options (body.initial options) state ∧
        body.AscendsFrom options state := by
  constructor
  · rintro ⟨fuel, hrun⟩
    obtain ⟨final, hreach, hhalted⟩ := exists_halted_of_run hrun
    exact ⟨final, hreach, ascendsFrom_of_halted hhalted⟩
  · rintro ⟨state, hreach, hascends⟩
    have hstate := hreach.consistent (consistent_initial body options)
    obtain ⟨steps, hsteps⟩ := hreach.exists_run_eq
    refine ⟨steps + (body.trackedIds.length + (max limit 1 + 2) * body.useCount), ?_⟩
    rw [hsteps]
    exact hascends.isSome_run_of_widening hwidening hstate

end Threshold

/-! ## Ranked instructions -/

/-- Users rank below what they use. -/
def RankedBy (body : Body) (rank : Nat → Nat) : Prop :=
  ∀ id ∈ body.trackedIds, ∀ user ∈ body.trackedUsers id, rank user < rank id

instance (body : Body) (rank : Nat → Nat) : Decidable (body.RankedBy rank) :=
  inferInstanceAs (Decidable (∀ id ∈ body.trackedIds, ∀ user ∈ body.trackedUsers id, _))

/-- A bound on the evaluations that one evaluation of an instruction of the given rank entails. -/
def cascade (body : Body) (rank : Nat) : Nat := (body.useCount + 1) ^ rank

section Ranked

variable {body : Body} {options : Options} {rank : Nat → Nat} {id : Nat}

theorem length_trackedUsers_le (hid : id ∈ body.trackedIds) :
    (body.trackedUsers id).length ≤ body.useCount :=
  List.le_sum_of_mem (List.mem_map_of_mem hid)

/-- The users of an instruction entail fewer evaluations than the instruction itself. -/
theorem RankedBy.sum_cascade_lt (hranked : body.RankedBy rank) (hid : id ∈ body.trackedIds) :
    ((body.trackedUsers id).map fun user => body.cascade (rank user)).sum <
      body.cascade (rank id) := by
  have hlower := hranked id hid
  cases hrank : rank id with
  | zero =>
      -- Nothing ranks below zero, so there are no users.
      have hnone : body.trackedUsers id = [] := List.eq_nil_iff_forall_not_mem.mpr
        fun user huser => by
          have := hlower user huser
          omega
      rw [hnone]
      exact Nat.pow_pos (Nat.succ_pos _)
  | succ height =>
      have huser : ∀ user ∈ body.trackedUsers id,
          body.cascade (rank user) ≤ body.cascade height := by
        intro user hmem
        have := hlower user hmem
        exact Nat.pow_le_pow_right (Nat.succ_pos _) (by omega)
      have hsum := List.sum_le_card_nsmul _ (body.cascade height) (List.forall_mem_map.mpr huser)
      rw [List.length_map, Nat.nsmul_eq_mul] at hsum
      calc ((body.trackedUsers id).map fun user => body.cascade (rank user)).sum
          ≤ (body.trackedUsers id).length * body.cascade height := hsum
        _ ≤ body.useCount * body.cascade height :=
          Nat.mul_le_mul_right _ (length_trackedUsers_le hid)
        _ < (body.useCount + 1) * body.cascade height :=
          Nat.mul_lt_mul_of_pos_right (Nat.lt_succ_self _) (Nat.pow_pos (Nat.succ_pos _))
        _ = body.cascade (height + 1) := (Nat.pow_succ').symm

/-- A run over ranked instructions ends, whatever the options. -/
theorem RankedBy.isSome_run (hranked : body.RankedBy rank) (options : Options) :
    (body.run options (body.trackedIds.map fun id => body.cascade (rank id)).sum
      (body.initial options)).isSome = true := by
  have hpos : ∀ id, 1 ≤ body.cascade (rank id) := fun id => Nat.pow_pos (Nat.succ_pos _)
  refine isSome_run_of_measure
    (fun state => (state.worklist.toList.map fun id => body.cascade (rank id)).sum) ?_ ?_ ?_
  · intro state
    have hlength := List.length_le_sum_of_one_le
      (state.worklist.toList.map fun id => body.cascade (rank id))
      (List.forall_mem_map.mpr fun id _ => hpos id)
    rwa [List.length_map] at hlength
  · intro before after hreach hstep
    obtain ⟨id, value, hevaluation⟩ := hstep.exists_evaluation
    have htracked := hevaluation.tracked (hreach.consistent (consistent_initial body options))
    have husers := hranked.sum_cascade_lt (mem_trackedIds.mpr htracked)
    obtain ⟨rest, hpop, _⟩ := hevaluation.effect
    have hqueued := rest.sum_map_toList_pushAll_le (body.trackedUsers id)
      fun id => body.cascade (rank id)
    rw [hevaluation.worklist_after hpop, (Worklist.toList_of_pop? hpop).1, List.map_cons,
      List.sum_cons]
    split
    · have := hpos id
      omega
    · omega
  · rw [worklist_initial]
    simpa using Worklist.empty.sum_map_toList_pushAll_le body.trackedIds
      fun id => body.cascade (rank id)

end Ranked

/-! ## When the analysis ends -/

/-- With a threshold, the analysis of a function ends if and only if its run ascends from some state
on. It ends soon if the run ascends throughout, and in any case if users rank below what they
use. -/
theorem terminates_iff_eventually_ascends {function : Function} {body : Body} {options : Options}
    {limit : Nat} (hbody : function.body = some body) (hwidening : options.widening = some limit) :
    ((∃ fuel, (function.ranges? fuel options).isSome = true) ↔
      ∃ state, body.Reaches options (body.initial options) state ∧
        body.AscendsFrom options state) ∧
    (body.AscendsFrom options (body.initial options) →
      (function.ranges? (body.trackedIds.length + (max limit 1 + 2) * body.useCount)
        options).isSome = true) ∧
    ∀ rank, body.RankedBy rank →
      (function.ranges? (body.trackedIds.map fun id => body.cascade (rank id)).sum
        options).isSome = true := by
  simp only [Function.ranges?_of_body hbody, Option.isSome_map]
  refine ⟨exists_isSome_run_iff hwidening, ?_, ?_⟩
  · intro hascends
    exact hascends.isSome_run_of_widening hwidening (consistent_initial body options)
  · intro rank hranked
    exact hranked.isSome_run options

/-- Whether the next evaluation takes nothing out of an interval. -/
def ascendsNext (body : Body) (options : Options) (state : State) : Bool :=
  match body.advance? options state with
  | some (.ok next) => decide (∀ id ∈ body.trackedIds, state.intervalOf id ≤ next.intervalOf id)
  | _ => true

theorem ascendsFrom_of_passes {body : Body} {options : Options} {state : State} {steps : Nat}
    (hstate : body.Consistent state)
    (hpasses : body.passes options (body.ascendsNext options) steps state = true) :
    body.AscendsFrom options state := by
  intro before after hreach hstep id
  have htest := test_of_passes hpasses hreach
  unfold Step at hstep
  rw [ascendsNext, hstep, decide_eq_true_eq] at htest
  by_cases htracked : body.tracked id = true
  · exact htest id (mem_trackedIds.mpr htracked)
  · rw [(hreach.consistent hstate).intervalOf_of_not_tracked htracked]
    exact Interval.empty_le _

/-- The checked body of two sums in a row: `one = add 0, 1` and `two = add one, 1`. -/
def straightBody : Body :=
  { blocks := [⟨0, none, [0, 1], .ret none⟩]
    nodes :=
      #[⟨0, some "one", .int 32,
          .binary .add (.constant (.int 32 0) (.int 32)) (.constant (.int 32 1) (.int 32))⟩,
        ⟨1, some "two", .int 32,
          .binary .add (.register 0 (.int 32)) (.constant (.int 32 1) (.int 32))⟩]
    uses := ⟨#[[1], []]⟩ }

/-- The counting loop ascends throughout and takes at most twelve evaluations; two sums in a row,
with ranks one and zero, take at most three. -/
theorem countingLoop_and_straight_terminate :
    (countingFunction.ranges? 12 .default).isSome = true ∧
      (Function.ranges? 3 .default ⟨"sums", [], .void, some straightBody⟩).isSome = true :=
  have hascends : countingBody.AscendsFrom .default (countingBody.initial .default) :=
    @ascendsFrom_of_passes _ _ _ 20 (consistent_initial _ _) rfl
  have hranked : straightBody.RankedBy fun id => 1 - id := by decide
  ⟨(@terminates_iff_eventually_ascends countingFunction _ .default _ rfl rfl).2.1 hascends,
    (@terminates_iff_eventually_ascends ⟨"sums", [], .void, some straightBody⟩ _ .default _ rfl
      rfl).2.2 _ hranked⟩

/-! ## A loop on which the analysis never ends -/

open Document in
/-- A loop over five values, of which only `e` is computed; the others pass values on:
`a = phi [4], [c]`, `b = phi [5], [e]`, `c = phi [2], [d]`, `d = phi [-2], [b]` and
`e = add a, 2`. -/
def restlessLoop : Document.Function :=
  let ty : TypeExpr := .int 32
  let number (value : String) : Operand := .constant ⟨ty, .int value⟩
  let merge (name start : String) (id source : UInt64) : Document.Instruction :=
    ⟨ty, id, some name, .phi [⟨number start, 0⟩, ⟨.instruction ty source, 1⟩]⟩
  { name := "restless"
    params := []
    ret := .void
    blocks :=
      [⟨0, none, [], ⟨.void, 0, none, .goto 1⟩⟩,
        ⟨1, none,
          [merge "a" "4" 1 3, merge "b" "5" 2 5, merge "c" "2" 3 4, merge "d" "-2" 4 2,
            ⟨ty, 5, some "e", .binary "add" (.instruction ty 1) (number "2")⟩],
          ⟨.void, 6, none, .goto 1⟩⟩] }

/-- The checked body of the loop. -/
def restlessBody : Body :=
  let ty : Ty := .int 32
  let number (value : Int64) : Value := .constant (.int 32 value) ty
  { blocks := [⟨0, none, [], .goto 1⟩, ⟨1, none, [0, 1, 2, 3, 4], .goto 1⟩]
    nodes :=
      #[⟨1, some "a", ty, .phi [(number 4, 0), (.register 2 ty, 1)]⟩,
        ⟨2, some "b", ty, .phi [(number 5, 0), (.register 4 ty, 1)]⟩,
        ⟨3, some "c", ty, .phi [(number 2, 0), (.register 3 ty, 1)]⟩,
        ⟨4, some "d", ty, .phi [(number (-2), 0), (.register 1 ty, 1)]⟩,
        ⟨5, some "e", ty, .binary .add (.register 0 ty) (number 2)⟩]
    uses := ⟨#[[4], [3], [0], [2], [1]]⟩ }

/-- The checked loop. -/
def restlessFunction : Function := ⟨"restless", [], .void, some restlessBody⟩

/-- The loop passes all checks, but its analysis with the default options never ends: from the 26th
evaluation on, the intervals and the queue recur every ten evaluations. -/
theorem restlessLoop_never_terminates :
    Function.ofDocument restlessLoop = .ok restlessFunction ∧
      ∀ fuel, restlessFunction.ranges? fuel .default = none := by
  refine ⟨rfl, fun fuel => ?_⟩
  have hrecurs : restlessBody.recurs .default 26 9 = true := rfl
  rw [Function.ranges?_of_body rfl, run_eq_none_of_recurs hrecurs]
  rfl

end Body

end ValueRange

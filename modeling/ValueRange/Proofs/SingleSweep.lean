import Mathlib.Data.List.Sort
import ValueRange.Proofs.LeastSolution
import ValueRange.Proofs.Verbosity

/-!
# One sweep over an ordered body

In an ordered body every tracked instruction uses tracked results of earlier positions only. When an
instruction is evaluated in the first sweep, all its tracked users still wait behind it, so a change
puts nothing back on the worklist, and the run ends with the sweep. Every instruction is evaluated
against the empty interval, which widening leaves out of account. Hence the run is the evaluation of
the tracked instructions one after the other, whatever the threshold.
-/

namespace ValueRange

namespace Store

variable {α : Type}

/-- A store is determined by what it binds. -/
theorem ext_get? {left right : Store α} (hget : ∀ id, left.get? id = right.get? id) :
    left = right := by
  apply ext_entries
  apply left.ascending.eq_of_mem_iff right.ascending
  rintro ⟨id, value⟩
  rw [mem_entries_iff left.ascending, mem_entries_iff right.ascending]
  exact Eq.congr_left (hget id)

end Store

/-- Pushing nodes that wait already changes nothing. -/
theorem Worklist.pushAll_eq_self {worklist : Worklist} {ids : List Nat}
    (hids : ∀ id ∈ ids, worklist.contains id = true) : worklist.pushAll ids = worklist := by
  unfold pushAll
  induction ids with
  | nil => rfl
  | cons id ids ih =>
      obtain ⟨hid, hids⟩ := List.forall_mem_cons.mp hids
      rw [List.foldl_cons, push_of_contains hid, ih hids]

/-- The first evaluation of an instruction is never changed by widening. -/
theorem State.revised_of_empty {state : State} {id : Nat} (hempty : state.intervalOf id = .empty)
    (options : Options) (value : Interval) : state.revised options id value = value := by
  unfold revised
  rw [hempty]
  split
  · exact if_pos rfl
  · rfl

namespace Body

/-- Every tracked instruction uses tracked results of earlier positions only. -/
def Ordered (body : Body) : Prop :=
  ∀ user ∈ body.trackedIds, ∀ node ∈ body.node? user,
    ∀ definition ∈ node.instruction.registers, body.tracked definition = true → definition < user

instance (body : Body) : Decidable body.Ordered :=
  inferInstanceAs (Decidable (∀ user ∈ body.trackedIds, ∀ node ∈ body.node? user, _))

/-- Evaluate instructions one after the other, each from the intervals stored before it. -/
def sweep (body : Body) : List Nat → Store Interval → Except Fault (Store Interval)
  | [], store => pure store
  | id :: rest, store => do
    let value ← body.evaluate id store
    body.sweep rest (store.insert id value)

theorem Supported.exists_sweep {body : Body} (hsupported : body.Supported) {ids : List Nat}
    (hids : ∀ id ∈ ids, body.tracked id = true) (store : Store Interval) :
    ∃ result, body.sweep ids store = .ok result := by
  induction ids generalizing store with
  | nil => exact ⟨store, rfl⟩
  | cons id rest ih =>
      obtain ⟨hid, hrest⟩ := List.forall_mem_cons.mp hids
      obtain ⟨value, hvalue⟩ := hsupported.exists_evaluate hid store
      obtain ⟨result, hresult⟩ := ih hrest (store.insert id value)
      exact ⟨result, Outcome.bind_eq_ok_iff.mpr ⟨value, hvalue, hresult⟩⟩

/-! ## The order of the arena -/

section Order

variable {body : Body} {done rest : List Nat} {id : Nat}

theorem pairwise_trackedIds (body : Body) : body.trackedIds.Pairwise (· < ·) :=
  List.pairwise_lt_range.filter _

/-- What is left of the tracked positions behind one of them are the greater ones. -/
theorem mem_rest_iff (hids : body.trackedIds = done ++ id :: rest) {other : Nat} :
    other ∈ rest ↔ body.tracked other = true ∧ id < other := by
  have hpairwise := pairwise_trackedIds body
  rw [hids, List.pairwise_append, List.pairwise_cons] at hpairwise
  obtain ⟨_, ⟨hrest, _⟩, hdone⟩ := hpairwise
  rw [← mem_trackedIds, hids, List.mem_append, List.mem_cons]
  constructor
  · intro hother
    exact ⟨Or.inr (Or.inr hother), hrest other hother⟩
  · rintro ⟨hearlier | rfl | hother, hlt⟩
    · have hless := hdone other hearlier id List.mem_cons_self
      omega
    · exact absurd hlt (Nat.lt_irrefl other)
    · exact hother

theorem Ordered.mem_rest_of_mem_trackedUsers (hordered : body.Ordered) (hexact : body.UsesExact)
    (hids : body.trackedIds = done ++ id :: rest) {user : Nat}
    (huser : user ∈ body.trackedUsers id) : user ∈ rest := by
  have hid : body.tracked id = true := by
    rw [← mem_trackedIds, hids]
    exact List.mem_append_right _ List.mem_cons_self
  obtain ⟨huser, htracked⟩ := List.mem_filter.mp huser
  obtain ⟨_, node, hnode, hregister⟩ := (hexact id user).mp huser
  exact (mem_rest_iff hids).mpr
    ⟨htracked, hordered user (mem_trackedIds.mpr htracked) node hnode id hregister hid⟩

end Order

/-! ## The run as a sweep -/

/-- The sweep has come as far as `store`, and the instructions `todo` are still to be evaluated. -/
structure Sweeping (body : Body) (todo : List Nat) (store : Store Interval) (state : State) :
    Prop where
  /-- The state is consistent. -/
  consistent : body.Consistent state
  /-- The worklist holds what is to be evaluated, in order. -/
  pending : state.worklist.toList = todo
  /-- What is to be evaluated is empty, and the rest is as in the sweep. -/
  get?_eq : ∀ id, state.store.get? id = if id ∈ todo then some .empty else store.get? id

theorem sweeping_initial (body : Body) (options : Options) :
    body.Sweeping body.trackedIds ∅ (body.initial options) where
  consistent := consistent_initial body options
  pending := toList_initial body options
  get?_eq id := by
    simp only [get?_initial, mem_trackedIds]
    rfl

section Run

variable {body : Body} {options : Options} {state after : State} {done todo rest : List Nat}
  {id : Nat} {store result : Store Interval} {value : Interval}

/-- The operands of the next instruction have their final intervals. -/
theorem Sweeping.evaluate_eq (hsweeping : body.Sweeping (id :: rest) store state)
    (hordered : body.Ordered) (hids : body.trackedIds = done ++ id :: rest) :
    body.evaluate id state.store = body.evaluate id store := by
  have htodo : ∀ other ∈ id :: rest, body.tracked other = true ∧ id ≤ other := by
    intro other hother
    refine ⟨hsweeping.consistent.pending_tracked other (hsweeping.pending ▸ hother), ?_⟩
    rcases List.mem_cons.mp hother with rfl | hrest
    · exact Nat.le_refl _
    · exact Nat.le_of_lt ((mem_rest_iff hids).mp hrest).2
  refine evaluate_congr fun node hnode definition hdefinition => ?_
  rw [hsweeping.get?_eq, if_neg]
  intro hleft
  obtain ⟨htracked, hle⟩ := htodo definition hleft
  have hid := mem_trackedIds.mpr (htodo id List.mem_cons_self).1
  have hlt := hordered id hid node hnode definition hdefinition htracked
  omega

/-- An evaluation takes the sweep one instruction further. -/
theorem Sweeping.evaluation (hsweeping : body.Sweeping (id :: rest) store state)
    (hordered : body.Ordered) (hexact : body.UsesExact)
    (hids : body.trackedIds = done ++ id :: rest)
    (hevaluation : body.Evaluation options state id value after) :
    body.Sweeping rest (store.insert id value) after where
  consistent := hevaluation.consistent hsweeping.consistent
  pending := by
    obtain ⟨queue, hpop, hqueue⟩ := Worklist.exists_pop?_of_toList hsweeping.pending
    rw [hevaluation.worklist_after hpop]
    split
    · exact hqueue
    · have hwaiting : ∀ user ∈ body.trackedUsers id, queue.contains user = true := by
        intro user huser
        rw [(hsweeping.consistent.faithful.pop hpop).contains_iff, hqueue]
        exact hordered.mem_rest_of_mem_trackedUsers hexact hids huser
      rw [Worklist.pushAll_eq_self hwaiting, hqueue]
  get?_eq other := by
    have hempty : state.intervalOf id = .empty := by
      rw [State.intervalOf, hsweeping.get?_eq, if_pos List.mem_cons_self, Option.getD_some]
    have hid : id ∉ rest := fun hrest => Nat.lt_irrefl id ((mem_rest_iff hids).mp hrest).2
    rw [hevaluation.get?_after hsweeping.consistent, State.revised_of_empty hempty,
      Store.get?_insert, hsweeping.get?_eq]
    by_cases hother : other = id
    · simp [hother, hid]
    · simp [hother]

theorem run_of_toList_eq_nil (hempty : state.worklist.toList = []) (fuel : Nat) :
    body.run options fuel state = some (.ok state) := by
  cases fuel with
  | zero => rw [run, if_pos (Worklist.isEmpty_iff.mpr hempty)]
  | succ fuel => rw [run, advance?_eq_none_iff.mpr hempty]

theorem popped_of_toList_eq_nil (hempty : state.worklist.toList = []) (fuel : Nat) :
    body.popped options fuel state = [] := by
  cases fuel with
  | zero => rfl
  | succ fuel => rw [popped, Worklist.pop?_eq_none_iff.mpr hempty]

/-- From any point of the sweep on, the run pops what is left of it and ends with its result. -/
theorem Sweeping.exists_run_eq (hordered : body.Ordered) (hexact : body.UsesExact)
    (hids : body.trackedIds = done ++ todo) (hsweeping : body.Sweeping todo store state)
    (hsweep : body.sweep todo store = .ok result) {fuel : Nat} (hfuel : todo.length ≤ fuel) :
    ∃ final, body.run options fuel state = some (.ok final) ∧
      body.popped options fuel state = todo ∧ final.store = result := by
  induction todo generalizing done store state fuel with
  | nil =>
      cases hsweep
      refine ⟨state, run_of_toList_eq_nil hsweeping.pending fuel,
        popped_of_toList_eq_nil hsweeping.pending fuel, Store.ext_get? fun id => ?_⟩
      rw [hsweeping.get?_eq, if_neg List.not_mem_nil]
  | cons id rest ih =>
      obtain ⟨fuel, rfl⟩ := Nat.exists_eq_succ_of_ne_zero (Nat.ne_zero_of_lt hfuel)
      obtain ⟨value, hvalue, hrest⟩ := Outcome.bind_eq_ok_iff.mp hsweep
      rw [← hsweeping.evaluate_eq hordered hids] at hvalue
      obtain ⟨queue, hpop, _⟩ := Worklist.exists_pop?_of_toList hsweeping.pending
      have husers : state.revised options id value ≠ state.intervalOf id → body.KnowsUsers id :=
        fun _ => hexact.knowsUsers id
      have hstep : body.Step options state
          (body.stateAfter options { state with worklist := queue } id value) :=
        step_iff.mpr ⟨id, queue, value, hpop, hvalue, husers, rfl⟩
      have hnext := hsweeping.evaluation hordered hexact hids
        (evaluation_stateAfter hpop hvalue husers)
      have hids' : body.trackedIds = (done ++ [id]) ++ rest := by
        rw [hids, List.append_assoc, List.singleton_append]
      obtain ⟨final, hrun, hpopped, hstore⟩ := ih hids' hnext hrest (Nat.le_of_succ_le_succ hfuel)
      refine ⟨final, ?_, ?_, hstore⟩
      · rw [run_succ_of_step hstep, hrun]
      · rw [popped_succ hpop hvalue husers, hpopped]

end Run

end Body

namespace Function

theorem report_congr (function : Function) {left right : Ranges}
    (hstore : left.store = right.store) : function.report left = function.report right := by
  simp only [report, reportLines, hstore]

/-- An ordered body without operators or predicates that are not modelled is solved in one sweep.
Whatever the options, and with fuel for one evaluation of each tracked instruction, the run ends,
having evaluated each of them once and in the order of the arena. Its intervals are those of
evaluating the instructions one after the other, so neither they nor the report depend on the
options. -/
theorem ordered_body_takes_one_sweep {document : Document.Function} {function : Function}
    {body : Body} (hfunction : Function.ofDocument document = .ok function)
    (hbody : function.body = some body) (hsupported : body.Supported)
    (hordered : body.Ordered) :
    ∃ store report, body.sweep body.trackedIds ∅ = .ok store ∧
      ∀ options fuel, body.trackedIds.length ≤ fuel →
        (∃ final, body.run options fuel (body.initial options) = some (.ok final) ∧
          body.popped options fuel (body.initial options) = body.trackedIds ∧
          (∀ id, final.visitsOf id = if body.tracked id = true then 1 else 0) ∧
          final.store = store) ∧
        ∃ ranges, function.ranges? fuel options = some (.ok ranges) ∧
          ranges.store = store ∧ ranges.evaluations = body.trackedIds.length ∧
          function.report ranges = .ok report := by
  have hexact := Function.usesExact_of_ofDocument hfunction hbody
  have hnodup : body.trackedIds.Nodup := (Body.pairwise_trackedIds body).nodup
  obtain ⟨store, hsweep⟩ := hsupported.exists_sweep (fun _ => Body.mem_trackedIds.mp) ∅
  have hruns : ∀ options fuel, body.trackedIds.length ≤ fuel →
      ∃ final, body.run options fuel (body.initial options) = some (.ok final) ∧
        body.popped options fuel (body.initial options) = body.trackedIds ∧
        final.store = store := fun options _ =>
    Body.Sweeping.exists_run_eq hordered hexact (List.nil_append _).symm
      (Body.sweeping_initial body options) hsweep
  -- A report depends on the intervals alone, so that of one run is that of all.
  obtain ⟨report, hreport⟩ : ∃ report, function.report ⟨store, 0, []⟩ = .ok report := by
    obtain ⟨final, hrun, _, hstore⟩ := hruns .default body.trackedIds.length (Nat.le_refl _)
    have hranges := ranges?_of_body hbody body.trackedIds.length .default
    rw [hrun] at hranges
    obtain ⟨report, hreport⟩ := exists_report_of_ofDocument hfunction hranges
    exact ⟨report, (function.report_congr hstore.symm).trans hreport⟩
  refine ⟨store, report, hsweep, fun options fuel hfuel => ?_⟩
  obtain ⟨final, hrun, hpopped, hstore⟩ := hruns options fuel hfuel
  obtain ⟨hvisits, htotal, _⟩ := Body.counts_of_run hrun
  rw [hpopped] at hvisits htotal
  refine ⟨⟨final, hrun, hpopped, fun id => ?_, hstore⟩,
    ⟨final.store, final.evaluations, final.events.reverse⟩, ?_, hstore, ?_,
    (function.report_congr hstore).trans hreport⟩
  · rw [hvisits, Body.visitsOf_initial, Nat.add_zero, hnodup.count]
    simp only [Body.mem_trackedIds]
  · rw [ranges?_of_body hbody, hrun]
    rfl
  · rw [htotal, Body.evaluations_initial, Nat.add_zero]

open Document in
/-- A function in order: `a = add 1, 2`, and then `b = phi [a], [5]`, `c = add b, a`,
`d = sub c, w` and `w = trunc d`. Only the result of the cast, which is not tracked, is used before
its definition. -/
def forwardSums : Document.Function :=
  let ty : TypeExpr := .int 32
  let number (value : String) : Operand := .constant ⟨ty, .int value⟩
  let result (index : UInt64) : Operand := .instruction ty index
  { name := "sums"
    params := []
    ret := .void
    blocks :=
      [⟨0, none, [⟨ty, 0, some "a", .binary "add" (number "1") (number "2")⟩],
          ⟨.void, 1, none, .goto 1⟩⟩,
        ⟨1, none,
          [⟨ty, 2, some "b", .phi [⟨result 0, 0⟩, ⟨number "5", 1⟩]⟩,
            ⟨ty, 3, some "c", .binary "add" (result 2) (result 0)⟩,
            ⟨ty, 4, some "d", .binary "sub" (result 3) (result 5)⟩,
            ⟨ty, 5, some "w", .cast "trunc" (result 4)⟩],
          ⟨.void, 6, none, .goto 1⟩⟩] }

/-- The checked body. -/
def forwardBody : Body :=
  let ty : Ty := .int 32
  let number (value : Int64) : Value := .constant (.int 32 value) ty
  { blocks := [⟨0, none, [0], .goto 1⟩, ⟨1, none, [1, 2, 3, 4], .goto 1⟩]
    nodes :=
      #[⟨0, some "a", ty, .binary .add (number 1) (number 2)⟩,
        ⟨2, some "b", ty, .phi [(.register 0 ty, 0), (number 5, 1)]⟩,
        ⟨3, some "c", ty, .binary .add (.register 1 ty) (.register 0 ty)⟩,
        ⟨4, some "d", ty, .binary .sub (.register 2 ty) (.register 4 ty)⟩,
        ⟨5, some "w", ty, .cast .trunc (.register 3 ty)⟩]
    uses := ⟨#[[2, 1], [2], [3], [4], [3]]⟩ }

/-- The intervals of the tracked instructions. -/
def forwardStore : Store Interval :=
  ⟨[(0, .constant 3), (1, ⟨.finite 3, .finite 5⟩), (2, ⟨.finite 6, .finite 8⟩), (3, .full)],
    by decide⟩

/-- Widening from the first change on and never widening give the same intervals. -/
theorem forwardSums_take_one_sweep :
    Function.ofDocument forwardSums = .ok ⟨"sums", [], .void, some forwardBody⟩ ∧
      forwardBody.Supported ∧ forwardBody.Ordered ∧
      forwardBody.sweep forwardBody.trackedIds ∅ = .ok forwardStore ∧
      ∀ widening : Option Nat, ∃ ranges,
        Function.ranges? 4 ⟨false, widening⟩ ⟨"sums", [], .void, some forwardBody⟩ =
            some (.ok ranges) ∧
          ranges.store = forwardStore ∧ ranges.evaluations = 4 := by
  have hdocument : Function.ofDocument forwardSums = .ok ⟨"sums", [], .void, some forwardBody⟩ :=
    rfl
  have hsupported : forwardBody.Supported := by decide
  have hordered : forwardBody.Ordered := by decide
  have hexpected : forwardBody.sweep forwardBody.trackedIds ∅ = .ok forwardStore := rfl
  obtain ⟨store, report, hsweep, hruns⟩ :=
    ordered_body_takes_one_sweep hdocument rfl hsupported hordered
  cases hexpected.symm.trans hsweep
  refine ⟨hdocument, hsupported, hordered, hsweep, fun widening => ?_⟩
  obtain ⟨_, ranges, hranges, hstore, hevaluations, _⟩ := hruns ⟨false, widening⟩ 4 (by decide)
  exact ⟨ranges, hranges, hstore, hevaluations⟩

end Function

end ValueRange

import Mathlib.Data.Nat.Find
import ValueRange.Proofs.Closedness
import ValueRange.Proofs.LeastSolution
import ValueRange.Workflow

/-!
# When the range analysis fails

The analysis of a body fails exactly if one of its instructions has an operator or a predicate that
is not modelled, and then the first such instruction of the arena decides the fault. The
instructions wait in the order of the arena at first, and an instruction that is queued meanwhile
waits behind all of them. So the first sweep gets to the first offending instruction whatever the
intervals are, and no later evaluation can fail if the sweep does not. In a module the first
offending function decides.
-/

namespace ValueRange

namespace Instruction

/-- The fault of evaluating an offending instruction. -/
def offence? : Instruction → Option Fault
  | binary opcode _ _ =>
    if opcode ∈ [.add, .sub, .mul, .sdiv] then none else some (.unsupportedOperator opcode)
  | compare predicate _ _ =>
    if predicate ∈ [.sge, .sle, .uge, .ule] then some (.unsupportedPredicate predicate) else none
  | _ => none

/-- The message about an offending instruction, which shows the operator or predicate as written. -/
def complaint : Instruction → String
  | binary opcode _ _ =>
    "[irange::invariant] unsupported binary operator `" ++ opcode.mnemonic ++
      "` on a tracked instruction"
  | compare predicate _ _ =>
    "[irange::invariant] unsupported comparison predicate `" ++ predicate.mnemonic ++
      "` on a tracked instruction"
  | _ => ""

theorem isSome_offence? (instruction : Instruction) :
    instruction.offence?.isSome = instruction.offending := by
  cases instruction with
  | binary opcode lhs rhs => cases opcode <;> rfl
  | compare predicate lhs rhs => cases predicate <;> rfl
  | _ => rfl

theorem tracked_of_offending {instruction : Instruction}
    (hoffending : instruction.offending = true) : instruction.tracked = true := by
  cases instruction with
  | binary opcode lhs rhs => rfl
  | compare predicate lhs rhs => rfl
  | _ => cases hoffending

theorem message_of_offence? {instruction : Instruction} {fault : Fault}
    (hoffence : instruction.offence? = some fault) :
    fault.category = .invariant ∧ fault.message = instruction.complaint := by
  cases instruction with
  | binary opcode lhs rhs => cases opcode <;> cases hoffence <;> exact ⟨rfl, rfl⟩
  | compare predicate lhs rhs => cases predicate <;> cases hoffence <;> exact ⟨rfl, rfl⟩
  | _ => cases hoffence

/-- The intervals of the operands have no influence on the fault. -/
theorem transfer_of_offence? {instruction : Instruction} {fault : Fault}
    (hoffence : instruction.offence? = some fault) (store : Store Interval) :
    instruction.transfer store = .error fault := by
  cases instruction with
  | binary opcode lhs rhs => cases opcode <;> cases hoffence <;> rfl
  | compare predicate lhs rhs => cases predicate <;> cases hoffence <;> rfl
  | _ => cases hoffence

end Instruction

namespace Body

/-- Some operator or predicate is not modelled. -/
def Offends (body : Body) : Prop := ∃ node ∈ body.nodes, node.instruction.offending = true

/-- The first offending instruction of the arena, and its fault. -/
structure FirstOffence (body : Body) (id : Nat) (node : Node) (fault : Fault) : Prop where
  /-- The instruction is at this position. -/
  node?_eq : body.node? id = some node
  /-- It offends. -/
  offence?_eq : node.instruction.offence? = some fault
  /-- No instruction before it does. -/
  earlier : ∀ other < id, ∀ node, body.node? other = some node →
    node.instruction.offending = false

section Sweep

variable {body : Body} {options : Options} {state : State} {id : Nat} {node : Node}
  {fault : Fault}

theorem not_offends_iff : ¬ body.Offends ↔ body.Supported := by
  simp [Offends, Supported]

theorem FirstOffence.offending (hfirst : body.FirstOffence id node fault) :
    node.instruction.offending = true := by
  rw [← Instruction.isSome_offence?, hfirst.offence?_eq, Option.isSome_some]

theorem FirstOffence.offends (hfirst : body.FirstOffence id node fault) : body.Offends :=
  ⟨node, Array.mem_of_getElem? hfirst.node?_eq, hfirst.offending⟩

theorem Offends.exists_firstOffence (hoffends : body.Offends) :
    ∃ id node fault, body.FirstOffence id node fault := by
  -- The least position of an offending instruction.
  have hposition : ∃ id node, body.node? id = some node ∧ node.instruction.offending = true := by
    obtain ⟨node, hnode, hoffending⟩ := hoffends
    obtain ⟨id, hid⟩ := Array.mem_iff_getElem?.mp hnode
    exact ⟨id, node, hid, hoffending⟩
  classical
  obtain ⟨node, hnode, hoffending⟩ := Nat.find_spec hposition
  rw [← Instruction.isSome_offence?, Option.isSome_iff_exists] at hoffending
  obtain ⟨fault, hfault⟩ := hoffending
  refine ⟨Nat.find hposition, node, fault, hnode, hfault, fun other hother earlier hearlier => ?_⟩
  have hleast := Nat.find_min hposition hother
  rw [← Bool.not_eq_true]
  intro hoffending
  exact hleast ⟨earlier, hearlier, hoffending⟩

theorem FirstOffence.tracked (hfirst : body.FirstOffence id node fault) :
    body.tracked id = true :=
  tracked_iff.mpr ⟨node, hfirst.node?_eq, Instruction.tracked_of_offending hfirst.offending⟩

theorem FirstOffence.evaluate_eq (hfirst : body.FirstOffence id node fault)
    (store : Store Interval) : body.evaluate id store = .error fault := by
  rw [evaluate_of_node? hfirst.node?_eq]
  exact Instruction.transfer_of_offence? hfirst.offence?_eq store

theorem FirstOffence.exists_evaluate (hfirst : body.FirstOffence id node fault) {other : Nat}
    (hother : other < id) (htracked : body.tracked other = true) (store : Store Interval) :
    ∃ value, body.evaluate other store = .ok value := by
  obtain ⟨earlier, hearlier, htracked⟩ := tracked_iff.mp htracked
  obtain ⟨value, hvalue⟩ :=
    Instruction.exists_transfer_eq_ok htracked (hfirst.earlier other hother earlier hearlier) store
  exact ⟨value, evaluate_eq_ok_iff.mpr ⟨earlier, hearlier, hvalue⟩⟩

/-- The tracked positions before the first offence, the offence, and the rest. -/
theorem FirstOffence.trackedIds_eq (hfirst : body.FirstOffence id node fault) :
    ∃ later, body.trackedIds = (List.range id).filter body.tracked ++ id :: later := by
  have hsize := lt_size_of_node? hfirst.node?_eq
  obtain ⟨rest, hrest⟩ := Nat.exists_eq_add_of_lt hsize
  refine ⟨(List.range' (id + 1) rest).filter body.tracked, ?_⟩
  have hids : List.range body.nodes.size =
      List.range id ++ id :: List.range' (id + 1) rest := by
    rw [hrest, Nat.add_assoc, List.range_eq_range', List.range_eq_range',
      ← List.range'_append_1, Nat.zero_add, List.range'_succ]
  rw [trackedIds, ids, hids, List.filter_append, List.filter_cons_of_pos hfirst.tracked]

/-- A queue is worked off in order: what is evaluated without a fault before the first instruction
that faults only adds to the end of the queue. -/
theorem run_of_queue (hexact : body.UsesExact) {ready back : List Nat}
    (hqueue : state.worklist.toList = ready ++ id :: back)
    (hready : ∀ other ∈ ready, ∀ store, ∃ value, body.evaluate other store = .ok value)
    (hfault : ∀ store, body.evaluate id store = .error fault) (fuel : Nat) :
    body.run options fuel state =
      if fuel ≤ ready.length then none else some (.error fault) := by
  induction ready generalizing state back fuel with
  | nil =>
      cases fuel with
      | zero => exact run_zero_of_toList (hqueue ▸ List.cons_ne_nil _ _)
      | succ fuel =>
          obtain ⟨rest, hpop, _⟩ := Worklist.exists_pop?_of_toList hqueue
          have hadvance : body.advance? options state = some (.error fault) := by
            simp only [advance?, hpop, visit, hfault, bind, Except.bind]
          rw [run, hadvance]
          rfl
  | cons first ready ih =>
      obtain ⟨hfirst, hready⟩ := List.forall_mem_cons.mp hready
      cases fuel with
      | zero => exact run_zero_of_toList (hqueue ▸ List.cons_ne_nil _ _)
      | succ fuel =>
          obtain ⟨rest, hpop, hrest⟩ := Worklist.exists_pop?_of_toList hqueue
          obtain ⟨value, hvalue⟩ := hfirst state.store
          obtain ⟨next, hstep, hevaluation⟩ :=
            exists_step options hpop hvalue fun _ => hexact.knowsUsers first
          have hnext : ∃ queued, next.worklist.toList = ready ++ id :: (back ++ queued) := by
            rw [hevaluation.worklist_after hpop]
            split
            · exact ⟨[], by simp [hrest]⟩
            · exact ⟨rest.appended (body.trackedUsers first), by
                rw [Worklist.toList_pushAll, hrest]
                simp⟩
          obtain ⟨queued, hnext⟩ := hnext
          rw [run_succ_of_step hstep, ih hnext hready fuel, List.length_cons]
          simp only [Nat.succ_le_succ_iff]

/-- The run fails in the first sweep, after one evaluation for each tracked position before the
first offence. -/
theorem FirstOffence.run_eq (hfirst : body.FirstOffence id node fault) (hexact : body.UsesExact)
    (options : Options) (fuel : Nat) :
    body.run options fuel (body.initial options) =
      if fuel ≤ (List.range id).countP body.tracked then none else some (.error fault) := by
  obtain ⟨later, hids⟩ := hfirst.trackedIds_eq
  rw [List.countP_eq_length_filter]
  refine run_of_queue hexact ((toList_initial body options).trans hids) ?_ hfirst.evaluate_eq fuel
  intro other hother
  rw [List.mem_filter, List.mem_range] at hother
  exact hfirst.exists_evaluate hother.1 hother.2

theorem FirstOffence.countP_lt (hfirst : body.FirstOffence id node fault) :
    (List.range id).countP body.tracked < body.trackedIds.length := by
  obtain ⟨later, hids⟩ := hfirst.trackedIds_eq
  rw [hids, List.length_append, List.length_cons, List.countP_eq_length_filter]
  omega

theorem exists_run_eq_error_iff (hexact : body.UsesExact) (options : Options) :
    (∃ fuel fault, body.run options fuel (body.initial options) = some (.error fault)) ↔
      body.Offends := by
  constructor
  · rintro ⟨fuel, fault, hrun⟩
    by_contra hoffends
    exact (not_offends_iff.mp hoffends).run_ne_error hexact (consistent_initial body options) fuel
      fault hrun
  · intro hoffends
    obtain ⟨id, node, fault, hfirst⟩ := hoffends.exists_firstOffence
    refine ⟨(List.range id).countP body.tracked + 1, fault, ?_⟩
    rw [hfirst.run_eq hexact, if_neg (Nat.not_succ_le_self _)]

end Sweep

end Body

namespace Function

/-- The function has a body that offends. -/
def Offends (function : Function) : Prop := ∃ body, function.body = some body ∧ body.Offends

variable {document : Document.Function} {function : Function} {body : Body} {options : Options}
  {fuel : Nat} {fault : Fault} (hfunction : Function.ofDocument document = .ok function)

include hfunction

theorem ranges?_of_firstOffence (hbody : function.body = some body) {id : Nat} {node : Node}
    (hfirst : body.FirstOffence id node fault) (options : Options) (fuel : Nat) :
    function.ranges? fuel options =
      if fuel ≤ (List.range id).countP body.tracked then none else some (.error fault) := by
  rw [ranges?_of_body hbody, hfirst.run_eq (usesExact_of_ofDocument hfunction hbody)]
  split <;> rfl

theorem exists_ranges?_eq_error_iff (hbody : function.body = some body) (options : Options) :
    (∃ fuel fault, function.ranges? fuel options = some (.error fault)) ↔ body.Offends := by
  simp only [ranges?_eq_error_iff hbody]
  exact Body.exists_run_eq_error_iff (usesExact_of_ofDocument hfunction hbody) options

/-- A fault of an analysis is that of the first offence. -/
theorem exists_firstOffence_of_ranges?
    (hranges : function.ranges? fuel options = some (.error fault)) :
    ∃ body id node, function.body = some body ∧ body.FirstOffence id node fault := by
  cases hbody : function.body with
  | none => simp [ranges?, hbody] at hranges
  | some body =>
      have hoffends :=
        (exists_ranges?_eq_error_iff hfunction hbody options).mp ⟨fuel, fault, hranges⟩
      obtain ⟨id, node, expected, hfirst⟩ := hoffends.exists_firstOffence
      rw [ranges?_of_firstOffence hfunction hbody hfirst] at hranges
      split at hranges
      · cases hranges
      · cases hranges
        exact ⟨body, id, node, rfl, hfirst⟩

theorem not_offends_of_ranges? {ranges : Ranges}
    (hranges : function.ranges? fuel options = some (.ok ranges)) : ¬ function.Offends := by
  rintro ⟨body, hbody, hoffends⟩
  obtain ⟨id, node, fault, hfirst⟩ := hoffends.exists_firstOffence
  rw [ranges?_of_firstOffence hfunction hbody hfirst] at hranges
  split at hranges <;> cases hranges

end Function

/-- The functions of a checked module are checked. -/
theorem Module.exists_ofDocument_of_mem {document : Document.Module} {module : Module}
    {function : Function} (hmodule : ofDocument document = .ok module)
    (hfunction : function ∈ module.functions) :
    ∃ document, Function.ofDocument document = .ok function := by
  rw [ofDocument] at hmodule
  split at hmodule
  · cases hmodule
  · obtain ⟨functions, hfunctions, hmodule⟩ := Outcome.bind_eq_ok_iff.mp hmodule
    cases Outcome.pure_eq_ok_iff.mp hmodule
    obtain ⟨document, _, hdocument⟩ :=
      exists_of_mem_of_forall₂ (Outcome.mapM_eq_ok_iff.mp hfunctions) hfunction
    exact ⟨document, hdocument⟩

namespace Workflow

/-- The first function of a list that offends has its first offence with this fault. -/
inductive FirstFailure : List Function → Fault → Prop
  | here {function : Function} {rest : List Function} {body : Body} {id : Nat} {node : Node}
      {fault : Fault} (hbody : function.body = some body)
      (hfirst : body.FirstOffence id node fault) : FirstFailure (function :: rest) fault
  | later {function : Function} {rest : List Function} {fault : Fault}
      (hfunction : ¬ function.Offends) (hrest : FirstFailure rest fault) :
      FirstFailure (function :: rest) fault

/-- The analyses of all functions succeed with these outcomes. -/
abbrev AllSucceed (fuel : Nat) (options : Options) : List Function → List Ranges → Prop :=
  List.Forall₂ fun function ranges => function.ranges? fuel options = some (.ok ranges)

/-- An output has the reports and traces of functions, one after the other. -/
def Collects (functions : List Function) (ranges : List Ranges) (output : Output) : Prop :=
  ∃ (reports : List String) (traces : List (List String)),
    List.zipWith Function.report functions ranges = reports.map .ok ∧
    List.zipWith Function.trace functions ranges = traces.map .ok ∧
    output = ⟨String.join reports, traces.flatten⟩

variable {fuel : Nat} {options : Options} {functions : List Function}
  {result : Logged (Except Fault Output)} {fault : Fault}

theorem FirstFailure.exists_offends (hfailure : FirstFailure functions fault) :
    ∃ function ∈ functions, function.Offends := by
  induction hfailure with
  | here hbody hfirst => exact ⟨_, List.mem_cons_self, _, hbody, hfirst.offends⟩
  | later _ _ ih =>
      obtain ⟨function, hfunction, hoffends⟩ := ih
      exact ⟨function, List.mem_cons_of_mem _ hfunction, hoffends⟩

theorem Collects.cons {function : Function} {ranges : Ranges} {others : List Ranges}
    {output collected : Output} (hcollects : Collects functions others collected)
    (houtput : Output.ofRanges function ranges = .ok output) :
    Collects (function :: functions) (ranges :: others) (output.append collected) := by
  obtain ⟨report, hreport, houtput⟩ := Outcome.bind_eq_ok_iff.mp houtput
  obtain ⟨trace, htrace, houtput⟩ := Outcome.bind_eq_ok_iff.mp houtput
  cases Outcome.pure_eq_ok_iff.mp houtput
  obtain ⟨reports, traces, hreports, htraces, rfl⟩ := hcollects
  refine ⟨report :: reports, trace :: traces, ?_, ?_, ?_⟩
  · rw [List.zipWith_cons_cons, hreport, hreports, List.map_cons]
  · rw [List.zipWith_cons_cons, htrace, htraces, List.map_cons]
  · rw [Output.append, String.join_cons, List.flatten_cons]

theorem exists_ofRanges {document : Document.Function} {function : Function} {ranges : Ranges}
    (hfunction : Function.ofDocument document = .ok function)
    (hranges : function.ranges? fuel options = some (.ok ranges)) :
    ∃ output, Output.ofRanges function ranges = .ok output := by
  obtain ⟨report, hreport⟩ := Function.exists_report_of_ofDocument hfunction hranges
  refine Outcome.exists_bind_eq_ok_iff.mpr ⟨report, hreport, ?_⟩
  exact Outcome.exists_bind_pure_iff.mpr (Function.exists_trace_of_ofDocument hfunction hranges)

section Checked

variable (hchecked : ∀ function ∈ functions, ∃ document, Function.ofDocument document = .ok function)

include hchecked

theorem AllSucceed.not_offends {ranges : List Ranges}
    (hsucceed : AllSucceed fuel options functions ranges) :
    ∀ function ∈ functions, ¬ function.Offends := by
  induction hsucceed with
  | nil => simp
  | cons hranges _ ih =>
      obtain ⟨⟨document, hfunction⟩, hrest⟩ := List.forall_mem_cons.mp hchecked
      exact List.forall_mem_cons.mpr
        ⟨Function.not_offends_of_ranges? hfunction hranges, ih hrest⟩

/-- Analyses in a row end with the first failure, or all of them succeed. -/
theorem value_of_analyzeAll (hresult : analyzeAll fuel options functions = some result) :
    (∃ fault, FirstFailure functions fault ∧ result.value = .error fault) ∨
      ∃ ranges output, AllSucceed fuel options functions ranges ∧
        Collects functions ranges output ∧ result.value = .ok output := by
  induction functions generalizing result with
  | nil =>
      cases hresult
      exact Or.inr ⟨[], _, .nil, ⟨[], [], rfl, rfl, rfl⟩, rfl⟩
  | cons function rest ih =>
      obtain ⟨⟨document, hfunction⟩, hrest⟩ := List.forall_mem_cons.mp hchecked
      rw [analyzeAll] at hresult
      split at hresult
      · cases hresult
      · rename_i fault hranges
        cases hresult
        obtain ⟨body, id, node, hbody, hfirst⟩ :=
          Function.exists_firstOffence_of_ranges? hfunction hranges
        exact Or.inl ⟨fault, .here hbody hfirst, rfl⟩
      · rename_i ranges hranges
        obtain ⟨output, houtput⟩ := exists_ofRanges hfunction hranges
        rw [houtput] at hresult
        simp only at hresult
        split at hresult
        · cases hresult
        · rename_i others hothers
          cases hresult
          have hsound := Function.not_offends_of_ranges? hfunction hranges
          rcases ih hrest hothers with
            ⟨fault, hfailure, hvalue⟩ | ⟨outcomes, collected, hsucceed, hcollects, hvalue⟩
          · exact Or.inl ⟨fault, .later hsound hfailure, by simp [hvalue, Except.map]⟩
          · exact Or.inr ⟨ranges :: outcomes, _, .cons hranges hsucceed, hcollects.cons houtput,
              by simp [hvalue, Except.map]⟩

end Checked

/-- The analysis of a checked body fails if and only if an instruction offends. It then fails in the
first sweep with the fault of the first offence, whatever the options, and the message shows the
operator or predicate. On a checked module that is analysed to an end, the first offending function
decides in the same way, and if there is none, the output consists of those of the functions in
order. -/
theorem failure_decided_by_first_offence :
    (∀ (document : Document.Function) (function : Function) (body : Body),
      Function.ofDocument document = .ok function → function.body = some body →
      (∀ options, (∃ fuel fault, function.ranges? fuel options = some (.error fault)) ↔
        body.Offends) ∧
      (body.Offends → ∃ id node fault, body.FirstOffence id node fault ∧
        fault.category = .invariant ∧ fault.message = node.instruction.complaint ∧
        (List.range id).countP body.tracked < body.trackedIds.length ∧
        ∀ options fuel, function.ranges? fuel options =
          if fuel ≤ (List.range id).countP body.tracked then none else some (.error fault))) ∧
    ∀ (document : Document.Module) (module : Module) (options : Options) (fuel : Nat)
        (result : Logged (Except Fault Output)),
      Module.ofDocument document = .ok module →
      execute fuel ⟨module, options⟩ .range = some result →
        ((∃ fault, result.value = .error fault) ↔
          ∃ function ∈ module.defined, function.Offends) ∧
        (∀ fault, result.value = .error fault → FirstFailure module.defined fault) ∧
        ((∀ function ∈ module.defined, ¬ function.Offends) →
          ∃ ranges output, AllSucceed fuel options module.defined ranges ∧
            Collects module.defined ranges output ∧ result.value = .ok output) := by
  constructor
  · intro document function body hfunction hbody
    refine ⟨Function.exists_ranges?_eq_error_iff hfunction hbody, fun hoffends => ?_⟩
    obtain ⟨id, node, fault, hfirst⟩ := hoffends.exists_firstOffence
    obtain ⟨hcategory, hmessage⟩ := Instruction.message_of_offence? hfirst.offence?_eq
    exact ⟨id, node, fault, hfirst, hcategory, hmessage, hfirst.countP_lt,
      Function.ranges?_of_firstOffence hfunction hbody hfirst⟩
  · intro document module options fuel result hmodule hresult
    have hchecked : ∀ function ∈ module.defined,
        ∃ document, Function.ofDocument document = .ok function := fun function hfunction =>
      Module.exists_ofDocument_of_mem hmodule (List.mem_of_mem_filter hfunction)
    obtain ⟨analysed, hanalysed, rfl⟩ := Option.map_eq_some_iff.mp hresult
    rcases value_of_analyzeAll hchecked hanalysed with
      ⟨fault, hfailure, hvalue⟩ | ⟨ranges, output, hsucceed, hcollects, hvalue⟩
    · obtain ⟨function, hfunction, hoffends⟩ := hfailure.exists_offends
      refine ⟨⟨fun _ => ⟨function, hfunction, hoffends⟩, fun _ => ⟨fault, hvalue⟩⟩, ?_, ?_⟩
      · intro other hother
        rw [hvalue] at hother
        cases hother
        exact hfailure
      · intro hnone
        exact absurd hoffends (hnone function hfunction)
    · refine ⟨⟨?_, ?_⟩, ?_, fun _ => ⟨ranges, output, hsucceed, hcollects, hvalue⟩⟩
      · rintro ⟨fault, hfault⟩
        rw [hvalue] at hfault
        cases hfault
      · rintro ⟨function, hfunction, hoffends⟩
        exact absurd hoffends (AllSucceed.not_offends hchecked hsucceed function hfunction)
      · intro fault hfault
        rw [hvalue] at hfault
        cases hfault

/-! ## A loop with a shift -/

open Document in
/-- A counting loop that doubles its counter by a shift: `i = phi [0], [next]`, `next = add i, 1`,
`twice = shl i, 1` and `done = icmp sge twice, next`. -/
def shiftingLoop : Document.Function :=
  let ty : TypeExpr := .int 32
  let number (value : String) : Operand := .constant ⟨ty, .int value⟩
  { name := "shift"
    params := []
    ret := .void
    blocks :=
      [⟨0, none, [], ⟨.void, 0, none, .goto 1⟩⟩,
        ⟨1, none,
          [⟨ty, 1, some "i", .phi [⟨number "0", 0⟩, ⟨.instruction ty 2, 1⟩]⟩,
            ⟨ty, 2, some "next", .binary "add" (.instruction ty 1) (number "1")⟩,
            ⟨ty, 3, some "twice", .binary "shl" (.instruction ty 1) (number "1")⟩,
            ⟨.int 1, 4, some "done", .compare "sge" (.instruction ty 3) (.instruction ty 2)⟩],
          ⟨.void, 5, none, .goto 1⟩⟩] }

/-- The checked body of the loop. -/
def shiftingBody : Body :=
  let ty : Ty := .int 32
  let number (value : Int64) : Value := .constant (.int 32 value) ty
  { blocks := [⟨0, none, [], .goto 1⟩, ⟨1, none, [0, 1, 2, 3], .goto 1⟩]
    nodes :=
      #[⟨1, some "i", ty, .phi [(number 0, 0), (.register 1 ty, 1)]⟩,
        ⟨2, some "next", ty, .binary .add (.register 0 ty) (number 1)⟩,
        ⟨3, some "twice", ty, .binary .shl (.register 0 ty) (number 1)⟩,
        ⟨4, some "done", .bool, .compare .sge (.register 2 ty) (.register 1 ty)⟩]
    uses := ⟨#[[2, 1], [3, 0], [3], []]⟩ }

/-- The checked loop. -/
def shiftingFunction : Function := ⟨"shift", [], .void, some shiftingBody⟩

/-- The counting loop, and the loop with a shift after it. -/
def shiftingModule : Module := ⟨"loops", [Body.countingFunction, shiftingFunction]⟩

theorem offends_shiftingBody : shiftingBody.Offends :=
  ⟨_, @Array.mem_of_getElem? _ _ 2 _ rfl, rfl⟩

/-- The loop with a shift fails whatever the options, and so does the module. -/
theorem shiftingModule_fails :
    Module.ofDocument ⟨"loops", [Body.countingLoop, shiftingLoop]⟩ = .ok shiftingModule ∧
      shiftingBody.Offends ∧
      (∀ options, ∃ fuel fault, shiftingFunction.ranges? fuel options = some (.error fault)) ∧
      (execute 20 ⟨shiftingModule, .default⟩ .range).isSome = true ∧
      ∃ fault, FirstFailure shiftingModule.defined fault := by
  have hfunction := failure_decided_by_first_offence.1 shiftingLoop shiftingFunction shiftingBody
    rfl rfl
  have hmodule : Module.ofDocument ⟨"loops", [Body.countingLoop, shiftingLoop]⟩ =
      .ok shiftingModule := rfl
  have hresult : (execute 20 ⟨shiftingModule, .default⟩ .range).isSome = true := rfl
  refine ⟨hmodule, offends_shiftingBody,
    fun options => (hfunction.1 options).mpr offends_shiftingBody, hresult, ?_⟩
  obtain ⟨result, hresult⟩ := Option.isSome_iff_exists.mp hresult
  obtain ⟨hfails, hfirst, _⟩ :=
    failure_decided_by_first_offence.2 _ shiftingModule .default 20 result hmodule hresult
  obtain ⟨fault, hfault⟩ := hfails.mpr
    ⟨shiftingFunction, by simp [Module.defined, shiftingModule, shiftingFunction],
      shiftingBody, rfl, offends_shiftingBody⟩
  exact ⟨fault, hfirst fault hfault⟩

end Workflow

end ValueRange

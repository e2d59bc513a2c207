import ValueRange.Analysis.Report
import ValueRange.Listing
import ValueRange.Proofs.Printing
import ValueRange.Proofs.Stability

/-!
# Positions that are looked up

Listings, reports, traces and the range analysis itself look up instructions by their positions, and
a position beyond the arena is a fault. The positions come from the blocks, from operands and users,
and from the worklist, the store and the events of a run. In a checked function there is an
instruction at each of them, so this fault never occurs.
-/

namespace ValueRange

theorem Store.isSome_get?_of_mem {α : Type} {store : Store α} {entry : Nat × α}
    (hentry : entry ∈ store.toList) : (store.get? entry.1).isSome = true := by
  rw [mem_toList_iff.mp hentry]
  rfl

theorem Worklist.mem_of_mem_appended {worklist : Worklist} {ids : List Nat} {id : Nat}
    (hid : id ∈ worklist.appended ids) : id ∈ ids := by
  induction ids generalizing worklist with
  | nil => cases hid
  | cons first rest ih =>
      rw [appended] at hid
      split at hid
      · exact List.mem_cons_of_mem _ (ih hid)
      · rcases List.mem_cons.mp hid with rfl | hrest
        · exact List.mem_cons_self
        · exact List.mem_cons_of_mem _ (ih hrest)

/-! ## Events -/

namespace Event

theorem ids_of_mem_joins {event : Event} {position : Nat} {accumulated : Interval}
    {operands : List Interval} (hevent : event ∈ joins position accumulated operands) :
    event.ids = [] := by
  induction operands generalizing position accumulated with
  | nil => cases hevent
  | cons first rest ih =>
      rcases List.mem_cons.mp hevent with rfl | hrest
      · rfl
      · exact ih hrest

end Event

theorem State.mem_events_of_record {state : State} {options : Options} {events : List Event}
    {event : Event} (hevent : event ∈ (state.record options events).events) :
    event ∈ events ∨ event ∈ state.events := by
  unfold record at hevent
  split at hevent
  · simpa using hevent
  · exact Or.inr hevent

namespace Body

variable {body : Body} {options : Options}

theorem ids_of_mem_transferEvents {id : Nat} {store : Store Interval} {event : Event}
    (hevent : event ∈ body.transferEvents id store) : ∀ other ∈ event.ids, other = id := by
  rw [transferEvents] at hevent
  split at hevent
  · rcases List.mem_cons.mp hevent with rfl | hjoins
    · simp [Event.ids]
    · simp [Event.ids_of_mem_joins hjoins]
  · cases hevent

theorem ids_of_mem_evaluationEvents {state : State} {id : Nat} {value : Interval} {event : Event}
    (hevent : event ∈ body.evaluationEvents options state id value) :
    ∀ other ∈ event.ids, other = id := by
  rcases List.mem_append.mp hevent with hevent | hevent
  · rcases List.mem_append.mp hevent with htransfer | hwidened
    · exact ids_of_mem_transferEvents htransfer
    · split at hwidened
      · cases List.mem_singleton.mp hwidened
        simp [Event.ids]
      · cases hwidened
  · cases List.mem_singleton.mp hevent
    simp [Event.ids]

/-- An evaluation records events about the instruction that is evaluated and its tracked users. -/
theorem mem_events_stateAfter {state : State} {id : Nat} {value : Interval} {event : Event}
    (hevent : event ∈ (body.stateAfter options state id value).events) :
    event ∈ state.events ∨ ∀ other ∈ event.ids, other = id ∨ other ∈ body.trackedUsers id := by
  have hcounted : ∀ {counts}, event ∈ (State.record { state with visits := counts } options
      (body.evaluationEvents options state id value)).events →
      event ∈ state.events ∨ ∀ other ∈ event.ids, other = id ∨ other ∈ body.trackedUsers id := by
    intro counts hevent
    rcases State.mem_events_of_record hevent with hevaluation | hold
    · exact Or.inr fun other hother =>
        Or.inl (ids_of_mem_evaluationEvents hevaluation other hother)
    · exact Or.inl hold
  rw [stateAfter] at hevent
  split at hevent
  · exact hcounted hevent
  · rcases State.mem_events_of_record hevent with hqueued | hevent
    · obtain ⟨user, huser, rfl⟩ := List.mem_map.mp hqueued
      refine Or.inr fun other hother => Or.inr ?_
      rw [List.mem_singleton.mp hother]
      exact Worklist.mem_of_mem_appended huser
    · exact hcounted hevent

theorem Step.mem_events {before after : State} (hstep : body.Step options before after)
    {event : Event} (hevent : event ∈ after.events) :
    event ∈ before.events ∨
      ∃ id ∈ before.worklist.toList, ∀ other ∈ event.ids,
        other = id ∨ other ∈ body.trackedUsers id := by
  obtain ⟨id, rest, value, hpop, _, _, rfl⟩ := step_iff.mp hstep
  refine (mem_events_stateAfter hevent).imp_right fun hids => ⟨id, ?_, hids⟩
  rw [(Worklist.toList_of_pop? hpop).1]
  exact List.mem_cons_self

/-- Only tracked instructions are recorded. -/
theorem Reaches.tracked_of_mem_events {state : State}
    (hreach : body.Reaches options (body.initial options) state) {event : Event}
    (hevent : event ∈ state.events) {id : Nat} (hid : id ∈ event.ids) : body.tracked id = true := by
  have hinitial := consistent_initial body options
  induction hreach generalizing event id with
  | refl =>
      rcases State.mem_events_of_record hevent with hstarted | hnone
      · cases List.mem_singleton.mp hstarted
        rcases List.mem_append.mp hid with hbound | hpending
        · obtain ⟨entry, hentry, rfl⟩ := List.mem_map.mp hbound
          rw [← hinitial.isSome_get?, initial, State.record_store]
          exact Store.isSome_get?_of_mem hentry
        · refine hinitial.pending_tracked id ?_
          rwa [worklist_initial]
      · cases hnone
  | tail hreach hstep ih =>
      rcases hstep.mem_events hevent with hold | ⟨evaluated, hpending, hids⟩
      · exact ih hold hid
      · rcases hids id hid with rfl | huser
        · exact (Reaches.consistent hreach hinitial).pending_tracked id hpending
        · exact (List.mem_filter.mp huser).2

/-! ## Closed bodies -/

theorem exists_node_of_tracked {id : Nat} (htracked : body.tracked id = true) :
    ∃ node, body.node? id = some node := by
  obtain ⟨node, hnode, _⟩ := tracked_iff.mp htracked
  exact ⟨node, hnode⟩

/-- All that a body refers to is in its arena. -/
structure Closed (body : Body) : Prop where
  /-- The blocks list instructions. -/
  sequences : ∀ block ∈ body.blocks, ∀ id ∈ block.sequence, ∃ node, body.node? id = some node
  /-- The operands of instructions are held. -/
  operands : ∀ node ∈ body.nodes, ∀ value ∈ node.instruction.operands, body.Holds value
  /-- The operands of terminators are held. -/
  terminators : ∀ block ∈ body.blocks, ∀ value ∈ block.terminator.operands, body.Holds value
  /-- The users are instructions. -/
  users : ∀ id, body.KnowsUsers id

theorem holds_of_refers {function : Function} {operands : List Document.Operand}
    {values : List Value} (hrefers : List.Forall₂ (function.Refers body) operands values)
    {value : Value} (hvalue : value ∈ values) : body.Holds value := by
  intro id hid
  obtain ⟨operand, _, hrefers⟩ := exists_of_mem_of_forall₂ hrefers hvalue
  cases hrefers with
  | constant hty hvalue => cases hid
  | argument hparameter hty => cases hid
  | register hnode hty =>
      cases hid
      exact ⟨_, hnode⟩

theorem closed_of_represents {function : Function} {document : Document.Function}
    (hrepresents : function.Represents body document) (hexact : body.UsesExact) : body.Closed where
  sequences _ hblock _ := hrepresents.exists_node hblock
  operands node hnode value hvalue := by
    obtain ⟨instruction, _, hnode⟩ :=
      exists_of_mem_of_forall₂ hrepresents.nodes (Array.mem_toList_iff.mpr hnode)
    exact holds_of_refers hnode.mirrors.operands hvalue
  terminators block hblock value hvalue := by
    obtain ⟨block, _, hblock⟩ := exists_of_mem_of_forall₂ hrepresents.blocks hblock
    exact holds_of_refers hblock.mirrors.operands hvalue
  users := hexact.knowsUsers

end Body

/-! ## Lookups of the analysis -/

/-- The transfer function reads intervals and looks nothing up in the arena. -/
theorem Instruction.transfer_ne_unknownNode (instruction : Instruction) (store : Store Interval)
    (id : Nat) : instruction.transfer store ≠ .error (.unknownNode id) := by
  intro htransfer
  cases instruction with
  | binary opcode lhs rhs => cases opcode <;> cases htransfer
  | compare predicate lhs rhs => cases predicate <;> cases htransfer
  | _ => cases htransfer

namespace Body

section Analysis

variable {body : Body} {options : Options} {state : State} (hclosed : body.Closed)

include hclosed

/-- What is taken off the worklist is an instruction, and so are its users. -/
theorem Closed.advance?_ne_unknownNode (hstate : body.Consistent state) (id : Nat) :
    body.advance? options state ≠ some (.error (.unknownNode id)) := by
  intro hadvance
  rw [advance?] at hadvance
  cases hpop : state.worklist.pop? with
  | none => simp [hpop] at hadvance
  | some entry =>
      obtain ⟨next, rest⟩ := entry
      have hpending : next ∈ state.worklist.toList := by
        rw [(Worklist.toList_of_pop? hpop).1]
        exact List.mem_cons_self
      obtain ⟨node, hnode⟩ := exists_node_of_tracked (hstate.pending_tracked next hpending)
      simp only [hpop, visit_of_knowsUsers (hclosed.users next), Option.some.injEq] at hadvance
      cases hvalue : body.evaluate next state.store with
      | ok value =>
          rw [hvalue] at hadvance
          cases hadvance
      | error fault =>
          rw [hvalue] at hadvance
          cases hadvance
          rw [evaluate_of_node? hnode] at hvalue
          exact Instruction.transfer_ne_unknownNode _ _ _ hvalue

theorem Closed.run_ne_unknownNode (hstate : body.Consistent state) (fuel id : Nat) :
    body.run options fuel state ≠ some (.error (.unknownNode id)) := by
  induction fuel generalizing state with
  | zero =>
      rw [run]
      split <;> simp
  | succ fuel ih =>
      intro hrun
      rw [run] at hrun
      split at hrun
      · cases hrun
      · rename_i fault hfault
        cases hrun
        exact hclosed.advance?_ne_unknownNode hstate id hfault
      · rename_i next hnext
        obtain ⟨_, _, hevaluation⟩ := Step.exists_evaluation hnext
        exact ih (hevaluation.consistent hstate) hrun

end Analysis

end Body

/-! ## Lookups of the texts -/

namespace Function

section Texts

variable {function : Function} {body : Body} (hclosed : body.Closed)

include hclosed

theorem exists_instruction_of_node? {id : Nat} (hnode : ∃ node, body.node? id = some node) :
    ∃ text, (function.printer body).instruction id = .ok text := by
  obtain ⟨node, hnode⟩ := hnode
  exact Printer.exists_instruction_iff.mpr
    ⟨node, hnode, hclosed.operands node (Array.mem_of_getElem? hnode)⟩

theorem exists_blockEntries {block : Block} (hblock : block ∈ body.blocks) :
    ∃ entries, blockEntries (function.printer body) block = .ok entries := by
  rw [blockEntries, Outcome.exists_bind_eq_ok_iff]
  obtain ⟨entries, hentries⟩ : ∃ entries,
      block.sequence.mapM (instructionEntry (function.printer body)) = .ok entries := by
    refine Outcome.exists_mapM_eq_ok_iff.mpr fun id hid => ?_
    obtain ⟨node, hnode⟩ := hclosed.sequences block hblock id hid
    obtain ⟨text, htext⟩ := @exists_instruction_of_node? function body hclosed id ⟨node, hnode⟩
    refine Outcome.exists_bind_eq_ok_iff.mpr ⟨node, Body.node_eq_ok_iff.mpr hnode, ?_⟩
    refine Outcome.exists_bind_eq_ok_iff.mpr ⟨text, htext, ?_⟩
    split
    · exact ⟨_, rfl⟩
    · exact ⟨_, rfl⟩
  refine ⟨entries, hentries, ?_⟩
  rw [Outcome.exists_bind_pure_iff]
  exact Printer.exists_terminator_iff.mpr (hclosed.terminators block hblock)

theorem exists_instructionListing (hbody : function.body = some body) :
    ∃ text, function.instructionListing = .ok text := by
  unfold instructionListing
  rw [Outcome.exists_bind_pure_iff, instructionEntries, hbody]
  exact Outcome.exists_bind_pure_iff.mpr
    (Outcome.exists_mapM_eq_ok_iff.mpr fun _ => exists_blockEntries hclosed)

theorem exists_definitionEntries {id : Nat} (hid : id ∈ body.trackedIds) :
    ∃ entries, definitionEntries (function.printer body) id = .ok entries := by
  have htracked := Body.exists_node_of_tracked (Body.mem_trackedIds.mp hid)
  obtain ⟨text, htext⟩ := @exists_instruction_of_node? function body hclosed id htracked
  refine Outcome.exists_bind_eq_ok_iff.mpr ⟨text, htext, ?_⟩
  refine Outcome.exists_bind_eq_ok_iff.mpr
    ⟨_, Body.findTrackedUsers_eq_ok_iff.mpr ⟨hclosed.users id, rfl⟩, ?_⟩
  refine Outcome.exists_bind_pure_iff.mpr (Outcome.exists_mapM_eq_ok_iff.mpr fun user huser => ?_)
  exact exists_instruction_of_node? hclosed (hclosed.users id user (List.mem_of_mem_filter huser))

theorem exists_userListing (hbody : function.body = some body) :
    ∃ text, function.userListing = .ok text := by
  unfold userListing
  rw [Outcome.exists_bind_pure_iff, userEntries, hbody]
  exact Outcome.exists_bind_pure_iff.mpr
    (Outcome.exists_mapM_eq_ok_iff.mpr fun _ => exists_definitionEntries hclosed)

variable {options : Options} {state : State}
  (hreach : body.Reaches options (body.initial options) state)

include hreach

theorem exists_lines_of_mem_events {event : Event} (hevent : event ∈ state.events) :
    ∃ lines, event.lines function.name (function.printer body) = .ok lines := by
  refine Event.exists_lines_iff.mpr fun id hid => ?_
  exact exists_instruction_of_node? hclosed
    (Body.exists_node_of_tracked (hreach.tracked_of_mem_events hevent hid))

theorem exists_reportLine_of_mem_store {entry : Nat × Interval}
    (hentry : entry ∈ state.store.toList) :
    ∃ line, reportLine (function.printer body) entry = .ok line := by
  have htracked := Store.isSome_get?_of_mem hentry
  rw [(hreach.consistent (Body.consistent_initial body options)).isSome_get?] at htracked
  rw [reportLine, Outcome.exists_bind_pure_iff]
  exact exists_instruction_of_node? hclosed (Body.exists_node_of_tracked htracked)

end Texts

variable {function : Function} {body : Body} {options : Options} {fuel : Nat} {ranges : Ranges}

theorem exists_report (hclosed : body.Closed) (hbody : function.body = some body)
    (hranges : function.ranges? fuel options = some (.ok ranges)) :
    ∃ text, function.report ranges = .ok text := by
  obtain ⟨final, hrun, rfl⟩ := exists_run_of_ranges? hbody hranges
  rw [report, Outcome.exists_bind_pure_iff, reportLines, hbody]
  exact Outcome.exists_mapM_eq_ok_iff.mpr fun _ =>
    exists_reportLine_of_mem_store hclosed (Body.reaches_of_run hrun).1

theorem exists_trace (hclosed : body.Closed) (hbody : function.body = some body)
    (hranges : function.ranges? fuel options = some (.ok ranges)) :
    ∃ lines, function.trace ranges = .ok lines := by
  obtain ⟨final, hrun, rfl⟩ := exists_run_of_ranges? hbody hranges
  rw [trace, hbody]
  refine Outcome.exists_bind_pure_iff.mpr (Outcome.exists_mapM_eq_ok_iff.mpr fun event hevent => ?_)
  exact exists_lines_of_mem_events hclosed (Body.reaches_of_run hrun).1 (List.mem_reverse.mp hevent)

theorem ranges?_ne_unknownNode (hclosed : body.Closed) (hbody : function.body = some body)
    (fuel : Nat) (options : Options) (id : Nat) :
    function.ranges? fuel options ≠ some (.error (.unknownNode id)) := by
  rw [ne_eq, ranges?_eq_error_iff hbody]
  exact hclosed.run_ne_unknownNode (Body.consistent_initial body options) fuel id

/-- An edge that leads out of the arena is followed as soon as its source changes. -/
example : Function.ranges? 20 .default
    ⟨"count", [], .void, some { Body.countingBody with uses := ⟨#[[7], [0]]⟩ }⟩ =
      some (.error (.unknownNode 7)) :=
  rfl

theorem closed_of_ofDocument {document : Document.Function}
    (hfunction : Function.ofDocument document = .ok function) (hbody : function.body = some body) :
    body.Closed :=
  Body.closed_of_represents (represents_of_body hfunction hbody)
    (usesExact_of_ofDocument hfunction hbody)

theorem exists_report_of_ofDocument {document : Document.Function}
    (hfunction : Function.ofDocument document = .ok function)
    (hranges : function.ranges? fuel options = some (.ok ranges)) :
    ∃ text, function.report ranges = .ok text := by
  cases hbody : function.body with
  | none =>
      rw [report, reportLines, hbody]
      exact ⟨_, rfl⟩
  | some body => exact exists_report (closed_of_ofDocument hfunction hbody) hbody hranges

theorem exists_trace_of_ofDocument {document : Document.Function}
    (hfunction : Function.ofDocument document = .ok function)
    (hranges : function.ranges? fuel options = some (.ok ranges)) :
    ∃ lines, function.trace ranges = .ok lines := by
  cases hbody : function.body with
  | none =>
      rw [trace, hbody]
      exact ⟨_, rfl⟩
  | some body => exact exists_trace (closed_of_ofDocument hfunction hbody) hbody hranges

/-! ## Closed and faithful functions -/

/-- Whatever is written about a function and whatever its analysis does, there is an instruction at
every position that is looked up. -/
structure StaysInArena (function : Function) (body : Body) : Prop where
  /-- The users of a position are found. -/
  users : ∀ id, ∃ users, body.findTrackedUsers id = .ok users
  /-- Every instruction can be written. -/
  instruction : ∀ id < body.nodes.size, ∃ text, (function.printer body).instruction id = .ok text
  /-- Every terminator can be written. -/
  terminator : ∀ block ∈ body.blocks,
    ∃ text, (function.printer body).terminator block.terminator = .ok text
  /-- The instructions can be listed. -/
  instructionListing : ∃ text, function.instructionListing = .ok text
  /-- The users can be listed. -/
  userListing : ∃ text, function.userListing = .ok text
  /-- In every state of a run, the next evaluation finds its instruction and the users. -/
  advance? : ∀ options state, body.Reaches options (body.initial options) state →
    ∀ id, body.advance? options state ≠ some (.error (.unknownNode id))
  /-- What has been recorded in a state can be shown. -/
  events : ∀ options state, body.Reaches options (body.initial options) state →
    ∀ event ∈ state.events, ∃ lines, event.lines function.name (function.printer body) = .ok lines
  /-- The intervals of a state can be reported. -/
  store : ∀ options state, body.Reaches options (body.initial options) state →
    ∀ entry ∈ state.store.toList, ∃ line, reportLine (function.printer body) entry = .ok line
  /-- The analysis as a whole never asks for a position without an instruction. -/
  ranges? : ∀ fuel options id, function.ranges? fuel options ≠ some (.error (.unknownNode id))
  /-- When the analysis ends with ranges, there are a report and a trace. -/
  outcome : ∀ fuel options ranges, function.ranges? fuel options = some (.ok ranges) →
    (∃ text, function.report ranges = .ok text) ∧ ∃ lines, function.trace ranges = .ok lines

theorem staysInArena_of_closed (hclosed : body.Closed) (hbody : function.body = some body) :
    function.StaysInArena body where
  users id := ⟨_, Body.findTrackedUsers_eq_ok_iff.mpr ⟨hclosed.users id, rfl⟩⟩
  instruction id hid :=
    exists_instruction_of_node? hclosed ⟨body.nodes[id], Array.getElem?_eq_getElem hid⟩
  terminator block hblock :=
    Printer.exists_terminator_iff.mpr (hclosed.terminators block hblock)
  instructionListing := exists_instructionListing hclosed hbody
  userListing := exists_userListing hclosed hbody
  advance? options _ hreach :=
    hclosed.advance?_ne_unknownNode (hreach.consistent (Body.consistent_initial body options))
  events _ _ hreach _ := exists_lines_of_mem_events hclosed hreach
  store _ _ hreach _ := exists_reportLine_of_mem_store hclosed hreach
  ranges? := ranges?_ne_unknownNode hclosed hbody
  outcome _ _ _ hranges := ⟨exists_report hclosed hbody hranges, exists_trace hclosed hbody hranges⟩

/-- A checked function with blocks stands for its document, one node for each instruction and one
block for each block. Every operand refers to the parameter or the node that the document refers to,
every label to one block. So neither its texts nor its analysis ever look up a position beyond the
arena. -/
theorem closed_and_faithful {document : Document.Function} {function : Function}
    (hfunction : Function.ofDocument document = .ok function) (hblocks : document.blocks ≠ []) :
    ∃ body, function.body = some body ∧ function.Represents body document ∧
      function.StaysInArena body := by
  obtain ⟨body, hbody, hrepresents⟩ := represents_of_ofDocument hfunction hblocks
  exact ⟨body, hbody, hrepresents,
    staysInArena_of_closed (closed_of_ofDocument hfunction hbody) hbody⟩

/-- The counting loop refers forward, from its phi node to the sum below it. -/
theorem countingLoop_closed_and_faithful :
    Function.ofDocument Body.countingLoop = .ok Body.countingFunction ∧
      Body.countingLoop.blocks ≠ [] ∧
      ∃ body, Body.countingFunction.body = some body ∧
        Body.countingFunction.Represents body Body.countingLoop ∧
        Body.countingFunction.StaysInArena body :=
  ⟨Body.ofDocument_countingLoop, List.cons_ne_nil _ _,
    closed_and_faithful Body.ofDocument_countingLoop (List.cons_ne_nil _ _)⟩

end Function

end ValueRange

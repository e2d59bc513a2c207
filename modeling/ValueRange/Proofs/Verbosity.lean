import ValueRange.Proofs.Closedness
import ValueRange.Proofs.Recurrence

/-!
# What a verbose run adds

Recording never feeds back into the analysis. Forgetting what has been recorded takes every state of
a verbose run to the state of the silent run after as many evaluations, so the two runs evaluate the
same instructions in the same order and end alike. What a verbose run adds is its trace, in which one
line announces each evaluation.
-/

namespace ValueRange

namespace Options

/-- The same analysis with a record of its steps. -/
def loud (options : Options) : Options := { options with verbose := true }

/-- The same analysis without a record of its steps. -/
def quiet (options : Options) : Options := { options with verbose := false }

end Options

namespace State

/-- The state without what has been recorded. -/
def silent (state : State) : State := { state with events := [] }

@[simp]
theorem silent_store (state : State) : state.silent.store = state.store := rfl

@[simp]
theorem silent_worklist (state : State) : state.silent.worklist = state.worklist := rfl

@[simp]
theorem silent_record (state : State) (options : Options) (events : List Event) :
    (state.record options events).silent = state.silent := by
  unfold record
  split <;> rfl

end State

/-- The ranges without what has been recorded. -/
def Ranges.silent (ranges : Ranges) : Ranges := { ranges with events := [] }

namespace Body

/-- The instructions that the next evaluations take off the worklist, at most so many. -/
def popped (body : Body) (options : Options) : Nat → State → List Nat
  | 0, _ => []
  | steps + 1, state =>
    match state.worklist.pop? with
    | none => []
    | some (id, worklist) =>
      id ::
        match body.visit options { state with worklist } id with
        | .ok next => body.popped options steps next
        | .error _ => []

/-! ## Forgetting the record -/

section Forgetting

variable (body : Body) (options : Options)

theorem stateAfter_quiet (state : State) (id : Nat) (value : Interval) :
    body.stateAfter options.quiet state.silent id value =
      (body.stateAfter options state id value).silent := by
  simp only [stateAfter]
  rw [apply_ite State.silent, State.silent_record, State.silent_record]
  simp only [State.silent, State.record_visits]
  rfl

/-- Evaluating an instruction commutes with forgetting the record. -/
theorem visit_quiet (state : State) (id : Nat) :
    body.visit options.quiet state.silent id = (body.visit options state id).map State.silent := by
  rw [visit_eq, visit_eq, State.silent_store]
  cases body.evaluate id state.store with
  | error fault => rfl
  | ok value =>
      have hrevised : state.silent.revised options.quiet id value =
          state.revised options id value := rfl
      have hinterval : state.silent.intervalOf id = state.intervalOf id := rfl
      simp only [Except.bind, hrevised, hinterval, body.stateAfter_quiet options state id value]
      split
      · rfl
      · cases body.findTrackedUsers id <;> rfl

theorem advance?_quiet (state : State) :
    body.advance? options.quiet state.silent =
      (body.advance? options state).map (Except.map State.silent) := by
  rw [advance?, advance?, State.silent_worklist]
  cases state.worklist.pop? with
  | none => rfl
  | some entry =>
      exact congrArg some (body.visit_quiet options { state with worklist := entry.2 } entry.1)

theorem initial_quiet : body.initial options.quiet = (body.initial options).silent := by
  simp only [initial, State.silent_record]
  rfl

theorem after?_quiet (steps : Nat) (state : State) :
    body.after? options.quiet steps state.silent =
      (body.after? options steps state).map State.silent := by
  induction steps generalizing state with
  | zero => rfl
  | succ steps ih =>
      rw [after?, after?, advance?_quiet]
      cases body.advance? options state with
      | none => rfl
      | some outcome =>
          cases outcome with
          | error fault => rfl
          | ok next => exact ih next

theorem popped_quiet (steps : Nat) (state : State) :
    body.popped options.quiet steps state.silent = body.popped options steps state := by
  induction steps generalizing state with
  | zero => rfl
  | succ steps ih =>
      rw [popped, popped, State.silent_worklist]
      cases state.worklist.pop? with
      | none => rfl
      | some entry =>
          obtain ⟨id, worklist⟩ := entry
          have hvisit : body.visit options.quiet { state.silent with worklist } id =
              (body.visit options { state with worklist } id).map State.silent :=
            body.visit_quiet options { state with worklist } id
          simp only [hvisit]
          cases body.visit options { state with worklist } id with
          | error fault => rfl
          | ok next => exact congrArg (List.cons id) (ih next)

theorem run_quiet (fuel : Nat) (state : State) :
    body.run options.quiet fuel state.silent =
      (body.run options fuel state).map (Except.map State.silent) := by
  induction fuel generalizing state with
  | zero =>
      rw [run, run, State.silent_worklist]
      split <;> rfl
  | succ fuel ih =>
      rw [run, run, advance?_quiet]
      cases body.advance? options state with
      | none => rfl
      | some outcome =>
          cases outcome with
          | error fault => rfl
          | ok next => exact ih next

end Forgetting

end Body

/-- The ranges of a silent run are those of a verbose one without the record. -/
theorem Function.ranges?_quiet (function : Function) (options : Options) (fuel : Nat) :
    function.ranges? fuel options.quiet =
      (function.ranges? fuel options).map (Except.map Ranges.silent) := by
  cases hbody : function.body with
  | none => simp [ranges?, hbody, Except.map, Ranges.silent]
  | some body =>
      rw [ranges?_of_body hbody, ranges?_of_body hbody, Body.initial_quiet, Body.run_quiet]
      cases body.run options fuel (body.initial options) with
      | none => rfl
      | some outcome => cases outcome <;> rfl

/-! ## Announcements of evaluations -/

namespace Event

/-- The instruction whose evaluation an event records. -/
def evaluatedId? : Event → Option Nat
  | evaluated id _ _ => some id
  | _ => none

/-- Whether a line of a trace announces an evaluation. -/
def announcesEvaluation (line : String) : Bool := "analyzing ".toList.isPrefixOf line.toList

/-- The line that announces the evaluation of an instruction. -/
def announcement (printer : Printer) (id : Nat) : Except Fault String := do
  let text ← printer.instruction id
  pure ("analyzing " ++ text)

theorem filter_eq_nil_of_mapM {α : Type} {write : α → Except Fault String} {items : List α}
    {lines : List String}
    (hwrite : ∀ item line, write item = .ok line → announcesEvaluation line = false)
    (hlines : items.mapM write = .ok lines) : lines.filter announcesEvaluation = [] := by
  rw [List.filter_eq_nil_iff]
  intro line hline
  obtain ⟨item, _, hitem⟩ := exists_of_mem_of_forall₂ (Outcome.mapM_eq_ok_iff.mp hlines) hline
  simp [hwrite item line hitem]

/-- The record of an evaluation has one announcement among its lines, and no other event has any. -/
theorem filter_lines {name : String} {printer : Printer} {event : Event} {lines : List String}
    (hlines : event.lines name printer = .ok lines) :
    List.Forall₂ (fun id line => announcement printer id = .ok line) event.evaluatedId?.toList
      (lines.filter announcesEvaluation) := by
  cases event with
  | started entries queue =>
      obtain ⟨bound, hbound, hlines⟩ := Outcome.bind_eq_ok_iff.mp hlines
      obtain ⟨pending, hpending, hlines⟩ := Outcome.bind_eq_ok_iff.mp hlines
      cases Outcome.pure_eq_ok_iff.mp hlines
      have hboundLines : bound.filter announcesEvaluation = [] := by
        refine filter_eq_nil_of_mapM (fun entry line hline => ?_) hbound
        obtain ⟨text, _, hline⟩ := Outcome.bind_eq_ok_iff.mp hline
        cases Outcome.pure_eq_ok_iff.mp hline
        simp [announcesEvaluation, List.isPrefixOf]
      have hpendingLines : pending.filter announcesEvaluation = [] := by
        refine filter_eq_nil_of_mapM (fun id line hline => ?_) hpending
        obtain ⟨text, _, hline⟩ := Outcome.bind_eq_ok_iff.mp hline
        cases Outcome.pure_eq_ok_iff.mp hline
        simp [announcesEvaluation, List.isPrefixOf]
      simp [hboundLines, hpendingLines, announcesEvaluation, evaluatedId?, List.isPrefixOf]
  | joined position accumulated operand result =>
      cases hlines
      simp [announcesEvaluation, evaluatedId?, List.isPrefixOf]
  | evaluated id old new =>
      obtain ⟨text, htext, hlines⟩ := Outcome.bind_eq_ok_iff.mp hlines
      cases Outcome.pure_eq_ok_iff.mp hlines
      have hannouncement : announcement printer id = .ok ("analyzing " ++ text) := by
        rw [announcement, htext]
        rfl
      simpa [announcesEvaluation, evaluatedId?, List.isPrefixOf] using hannouncement
  | merging id | widened id value | queued id =>
      obtain ⟨text, _, hlines⟩ := Outcome.bind_eq_ok_iff.mp hlines
      cases Outcome.pure_eq_ok_iff.mp hlines
      simp [announcesEvaluation, evaluatedId?, List.isPrefixOf]

theorem filterMap_joins (position : Nat) (accumulated : Interval) (operands : List Interval) :
    (joins position accumulated operands).filterMap evaluatedId? = [] := by
  induction operands generalizing position accumulated with
  | nil => rfl
  | cons first rest ih => exact ih _ _

end Event

theorem Body.filterMap_transferEvents (body : Body) (id : Nat) (store : Store Interval) :
    (body.transferEvents id store).filterMap Event.evaluatedId? = [] := by
  unfold transferEvents
  split
  · exact Event.filterMap_joins _ _ _
  · rfl

namespace State

/-- The instructions whose evaluations have been recorded, the latest first. -/
def evaluatedIds (state : State) : List Nat := state.events.filterMap Event.evaluatedId?

theorem evaluatedIds_record {options : Options} (hverbose : options.verbose = true) (state : State)
    (events : List Event) :
    (state.record options events).evaluatedIds =
      (events.filterMap Event.evaluatedId?).reverse ++ state.evaluatedIds := by
  rw [record, if_pos hverbose]
  simp [evaluatedIds, List.filterMap_append, List.filterMap_reverse]

end State

/-! ## Counts of evaluations -/

namespace Store

theorem foldl_add_start (counts : List Nat) (start extra : Nat) :
    counts.foldl (· + ·) (start + extra) = counts.foldl (· + ·) start + extra := by
  induction counts generalizing start with
  | nil => rfl
  | cons first rest ih =>
      rw [List.foldl_cons, List.foldl_cons, Nat.add_right_comm, ih]

theorem findEntry_eq_none_of_lt {α : Type} {id : Nat} {entries : List (Nat × α)}
    (hlt : ∀ entry ∈ entries, id < entry.1) : findEntry id entries = none := by
  induction entries with
  | nil => rfl
  | cons first rest ih =>
      obtain ⟨hfirst, hrest⟩ := List.forall_mem_cons.mp hlt
      rw [findEntry, if_neg (Nat.ne_of_lt hfirst), ih hrest]

/-- Binding an identifier replaces its count in the total. -/
theorem foldl_insertEntry {id count : Nat} {entries : List (Nat × Nat)}
    (hentries : entries.Pairwise fun left right => left.1 < right.1) (start : Nat) :
    ((insertEntry id count entries).map Prod.snd).foldl (· + ·) start +
        (findEntry id entries).getD 0 =
      (entries.map Prod.snd).foldl (· + ·) start + count := by
  induction entries generalizing start with
  | nil => rfl
  | cons head rest ih =>
      obtain ⟨other, kept⟩ := head
      obtain ⟨hhead, hrest⟩ := List.pairwise_cons.mp hentries
      rw [insertEntry]
      split
      · rename_i hlt
        have hnone : findEntry id ((other, kept) :: rest) = none := by
          refine findEntry_eq_none_of_lt (List.forall_mem_cons.mpr ⟨hlt, fun entry hentry => ?_⟩)
          exact Nat.lt_trans hlt (hhead entry hentry)
        rw [hnone, List.map_cons, List.foldl_cons, foldl_add_start]
        rfl
      · split
        · rename_i heq
          rw [findEntry, if_pos heq, List.map_cons, List.map_cons, List.foldl_cons,
            List.foldl_cons, foldl_add_start, foldl_add_start, Option.getD_some]
          exact Nat.add_right_comm _ _ _
        · rename_i hne
          rw [findEntry, if_neg hne, List.map_cons, List.map_cons, List.foldl_cons,
            List.foldl_cons]
          exact ih hrest _

end Store

namespace Body

section Counting

variable {body : Body} {options : Options} {before after state : State} {id : Nat}
  {value : Interval}

theorem Evaluation.evaluations_after (hevaluation : body.Evaluation options before id value after) :
    after.evaluations = before.evaluations + 1 := by
  have htotal := @Store.foldl_insertEntry id (before.visitsOf id + 1) _ before.visits.ascending 0
  have hafter : after.evaluations =
      (Store.insertEntry id (before.visitsOf id + 1) before.visits.entries |>.map Prod.snd).foldl
        (· + ·) 0 := by
    rw [State.evaluations, hevaluation.visits]
    rfl
  have hbefore : before.evaluations = (before.visits.entries.map Prod.snd).foldl (· + ·) 0 := rfl
  have hcount : before.visitsOf id = (Store.findEntry id before.visits.entries).getD 0 := rfl
  omega

theorem filterMap_evaluationEvents (state : State) (id : Nat) (value : Interval) :
    (body.evaluationEvents options state id value).filterMap Event.evaluatedId? = [id] := by
  rw [evaluationEvents, List.filterMap_append, List.filterMap_append, filterMap_transferEvents]
  split <;> rfl

/-- A verbose evaluation records itself once. -/
theorem evaluatedIds_stateAfter (hverbose : options.verbose = true) (state : State) (id : Nat)
    (value : Interval) :
    (body.stateAfter options state id value).evaluatedIds = id :: state.evaluatedIds := by
  have hqueued : ∀ users : List Nat,
      (users.map Event.queued).filterMap Event.evaluatedId? = [] := by
    intro users
    rw [List.filterMap_map]
    exact List.filterMap_eq_nil_iff.mpr fun _ _ => rfl
  have hcounted : ∀ counts, (State.record { state with visits := counts } options
      (body.evaluationEvents options state id value)).evaluatedIds = id :: state.evaluatedIds := by
    intro counts
    rw [State.evaluatedIds_record hverbose, filterMap_evaluationEvents]
    rfl
  rw [stateAfter]
  split
  · exact hcounted _
  · rw [State.evaluatedIds_record hverbose, hqueued]
    exact hcounted _

theorem popped_succ {rest : Worklist} {steps : Nat} (hpop : state.worklist.pop? = some (id, rest))
    (hvalue : body.evaluate id state.store = .ok value)
    (husers : state.revised options id value ≠ state.intervalOf id → body.KnowsUsers id) :
    body.popped options (steps + 1) state =
      id :: body.popped options steps
        (body.stateAfter options { state with worklist := rest } id value) := by
  have hvisit : body.visit options { state with worklist := rest } id =
      .ok (body.stateAfter options { state with worklist := rest } id value) :=
    visit_eq_ok_iff.mpr ⟨value, hvalue, husers, rfl⟩
  simp only [popped, hpop, hvisit]

theorem visitsOf_initial (body : Body) (options : Options) (id : Nat) :
    (body.initial options).visitsOf id = 0 := by
  rw [State.visitsOf, initial, State.record_visits]
  rfl

theorem evaluations_initial (body : Body) (options : Options) :
    (body.initial options).evaluations = 0 := by
  rw [State.evaluations, initial, State.record_visits]
  rfl

theorem evaluatedIds_initial (body : Body) (options : Options) :
    (body.initial options).evaluatedIds = [] := by
  rw [initial, State.record]
  split <;> rfl

/-- A run that ends has counted, and if it is verbose recorded, the instructions it has popped. -/
theorem counts_of_run {fuel : Nat} {final : State}
    (hrun : body.run options fuel state = some (.ok final)) :
    (∀ id, final.visitsOf id = (body.popped options fuel state).count id + state.visitsOf id) ∧
      final.evaluations = (body.popped options fuel state).length + state.evaluations ∧
      (options.verbose = true →
        final.evaluatedIds = (body.popped options fuel state).reverse ++ state.evaluatedIds) := by
  induction fuel generalizing state with
  | zero =>
      rw [run] at hrun
      split at hrun
      · cases hrun
        simp [popped]
      · cases hrun
  | succ fuel ih =>
      rw [run] at hrun
      split at hrun
      · rename_i hnone
        cases hrun
        have hpop := Worklist.pop?_eq_none_iff.mpr (advance?_eq_none_iff.mp hnone)
        simp [popped, hpop]
      · cases hrun
      · rename_i next hnext
        obtain ⟨id, rest, value, hpop, hvalue, husers, rfl⟩ := step_iff.mp hnext
        obtain ⟨hvisits, htotal, hrecord⟩ := ih hrun
        have hevaluation :=
          @evaluation_stateAfter body options state id rest value hpop hvalue husers
        rw [popped_succ hpop hvalue husers]
        refine ⟨fun other => ?_, ?_, fun hverbose => ?_⟩
        · rw [hvisits, hevaluation.visitsOf_after]
          by_cases hother : other = id
          · rw [if_pos hother, hother, List.count_cons_self]
            omega
          · rw [if_neg hother, List.count_cons_of_ne (Ne.symm hother)]
        · rw [htotal, hevaluation.evaluations_after, List.length_cons]
          omega
        · rw [hrecord hverbose, evaluatedIds_stateAfter hverbose, List.reverse_cons,
            List.append_assoc]
          rfl

end Counting

end Body

namespace Function

variable {function : Function} {body : Body} {options : Options}

theorem trace_silent (function : Function) (ranges : Ranges) :
    function.trace ranges.silent = .ok [] := by
  unfold trace
  cases function.body <;> rfl

/-- The announcements in a trace are those of the recorded evaluations. -/
theorem filter_trace (hbody : function.body = some body) {ranges : Ranges} {lines : List String}
    (htrace : function.trace ranges = .ok lines) :
    (ranges.events.filterMap Event.evaluatedId?).mapM
        (Event.announcement (function.printer body)) =
      .ok (lines.filter Event.announcesEvaluation) := by
  rw [trace, hbody] at htrace
  obtain ⟨written, hwritten, hlines⟩ := Outcome.bind_eq_ok_iff.mp htrace
  cases Outcome.pure_eq_ok_iff.mp hlines
  rw [Outcome.mapM_eq_ok_iff, List.filterMap_eq_flatMap_toList, List.flatMap_def,
    List.filter_flatten]
  apply List.rel_flatten
  rw [List.forall₂_map_left_iff, List.forall₂_map_right_iff]
  exact (Outcome.mapM_eq_ok_iff.mp hwritten).imp fun _ _ => Event.filter_lines

/-- A verbose run announces the evaluated instructions in order, and counts them. -/
theorem announcements_of_ranges? (hbody : function.body = some body)
    (hverbose : options.verbose = true) {fuel : Nat} {ranges : Ranges}
    (hranges : function.ranges? fuel options = some (.ok ranges)) :
    ∃ final, body.run options fuel (body.initial options) = some (.ok final) ∧
      (∀ lines, function.trace ranges = .ok lines →
        (body.popped options fuel (body.initial options)).mapM
            (Event.announcement (function.printer body)) =
          .ok (lines.filter Event.announcesEvaluation)) ∧
      (body.popped options fuel (body.initial options)).length = ranges.evaluations ∧
      ∀ id, (body.popped options fuel (body.initial options)).count id = final.visitsOf id := by
  rw [ranges?_of_body hbody, Option.map_eq_some_iff] at hranges
  obtain ⟨outcome, hrun, houtcome⟩ := hranges
  cases outcome with
  | error fault => cases houtcome
  | ok final =>
      cases houtcome
      obtain ⟨hvisits, htotal, hrecord⟩ := Body.counts_of_run hrun
      refine ⟨final, hrun, fun lines htrace => ?_, ?_, fun id => ?_⟩
      · have hids : final.events.filterMap Event.evaluatedId? =
            (body.popped options fuel (body.initial options)).reverse := by
          have hfinal := hrecord hverbose
          rwa [Body.evaluatedIds_initial, List.append_nil] at hfinal
        rw [← filter_trace hbody htrace, List.filterMap_reverse, hids, List.reverse_reverse]
      · rw [Body.evaluations_initial, Nat.add_zero] at htotal
        exact htotal.symm
      · rw [hvisits, Body.visitsOf_initial, Nat.add_zero]

/-- With and without a record, the analysis pops the same instructions and goes through the same
states, ends within the same number of evaluations, and has the same fault or the same intervals and
report. The trace is empty without a record. With it, one line announces each evaluation, in the
order of the evaluations and as often for each instruction as it was counted; the trace of a checked
function can always be written. -/
theorem verbosity_adds_only_the_trace (function : Function) (options : Options) :
    (∀ body, function.body = some body → ∀ steps,
      body.popped options.quiet steps (body.initial options.quiet) =
          body.popped options.loud steps (body.initial options.loud) ∧
        body.after? options.quiet steps (body.initial options.quiet) =
          (body.after? options.loud steps (body.initial options.loud)).map State.silent) ∧
    (∀ fuel,
      (function.ranges? fuel options.quiet).map (Except.map fun ranges =>
          (ranges.store, ranges.evaluations, function.report ranges)) =
        (function.ranges? fuel options.loud).map (Except.map fun ranges =>
          (ranges.store, ranges.evaluations, function.report ranges))) ∧
    (∀ fuel ranges, function.ranges? fuel options.quiet = some (.ok ranges) →
      function.trace ranges = .ok []) ∧
    (∀ body, function.body = some body → ∀ fuel ranges,
      function.ranges? fuel options.loud = some (.ok ranges) →
        ∃ final, body.run options.loud fuel (body.initial options.loud) = some (.ok final) ∧
          (∀ lines, function.trace ranges = .ok lines →
            (body.popped options.loud fuel (body.initial options.loud)).mapM
                (Event.announcement (function.printer body)) =
              .ok (lines.filter Event.announcesEvaluation)) ∧
          (body.popped options.loud fuel (body.initial options.loud)).length =
            ranges.evaluations ∧
          ∀ id, (body.popped options.loud fuel (body.initial options.loud)).count id =
            final.visitsOf id) ∧
    ∀ document, ofDocument document = .ok function → ∀ fuel ranges,
      function.ranges? fuel options.loud = some (.ok ranges) →
        ∃ lines, function.trace ranges = .ok lines := by
  have hquiet : options.quiet = options.loud.quiet := rfl
  refine ⟨fun body _ steps => ?_, fun fuel => ?_, fun fuel ranges hranges => ?_, ?_, ?_⟩
  · rw [hquiet, Body.initial_quiet]
    exact ⟨body.popped_quiet options.loud steps _, body.after?_quiet options.loud steps _⟩
  · rw [hquiet, ranges?_quiet]
    cases function.ranges? fuel options.loud with
    | none => rfl
    | some outcome => cases outcome <;> rfl
  · rw [hquiet, ranges?_quiet, Option.map_eq_some_iff] at hranges
    obtain ⟨outcome, _, houtcome⟩ := hranges
    cases outcome with
    | error fault => cases houtcome
    | ok recorded =>
        cases houtcome
        exact trace_silent function recorded
  · intro body hbody fuel ranges hranges
    exact announcements_of_ranges? hbody rfl hranges
  · intro document hfunction fuel ranges hranges
    exact exists_trace_of_ofDocument hfunction hranges

/-- The counting loop takes nine evaluations, of its two instructions in turn, and a verbose run
announces each of them. -/
theorem countingLoop_announcements :
    Body.countingFunction.body = some Body.countingBody ∧
      ofDocument Body.countingLoop = .ok Body.countingFunction ∧
      Body.countingFunction.ranges? 20 Options.default.quiet = some (.ok Body.countingRanges) ∧
      Body.countingFunction.trace Body.countingRanges = .ok [] ∧
      ∃ ranges lines, Body.countingFunction.ranges? 20 Options.default.loud = some (.ok ranges) ∧
        Body.countingFunction.trace ranges = .ok lines ∧
        [0, 1, 0, 1, 0, 1, 0, 1, 0].mapM
            (Event.announcement (Body.countingFunction.printer Body.countingBody)) =
          .ok (lines.filter Event.announcesEvaluation) := by
  obtain ⟨_, _, hquiet, hloud, hwritten⟩ :=
    verbosity_adds_only_the_trace Body.countingFunction .default
  obtain ⟨ranges, hranges⟩ : ∃ ranges,
      Body.countingFunction.ranges? 20 Options.default.loud = some (.ok ranges) := ⟨_, rfl⟩
  obtain ⟨lines, hlines⟩ := hwritten _ Body.ofDocument_countingLoop 20 ranges hranges
  obtain ⟨_, _, htrace, _⟩ := hloud Body.countingBody rfl 20 ranges hranges
  exact ⟨rfl, Body.ofDocument_countingLoop, rfl, hquiet 20 _ rfl, ranges, lines, hranges, hlines,
    htrace lines hlines⟩

end Function

end ValueRange

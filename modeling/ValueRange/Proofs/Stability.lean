import ValueRange.Proofs.Steps

/-!
# Stability of the fixpoint iteration

Between two evaluations, an instruction that is not pending is settled: its stored interval covers
what its operands give now, and is exactly that if nothing is ever widened. When nothing is pending
any more, all instructions are settled. What carries the invariant from one evaluation to the next
is that an instruction which reads a changed interval is among its users, and so becomes pending.
-/

namespace ValueRange

namespace Body

/-- The stored interval of an instruction covers the interval that its operands give, and is the
same without widening. -/
def Settled (body : Body) (options : Options) (store : Store Interval) (id : Nat) : Prop :=
  ∃ stored value, store.get? id = some stored ∧ body.evaluate id store = .ok value ∧
    value ≤ stored ∧ (options.widening = none → stored = value)

/-- A store for the tracked instructions in which every interval contains what its operands give. -/
structure Solution (body : Body) (store : Store Interval) : Prop where
  /-- Exactly the tracked instructions have an interval. -/
  isSome_get? : ∀ id, (store.get? id).isSome = body.tracked id
  /-- The intervals have the agreed shape. -/
  wellFormed : store.WellFormed
  /-- The interval of an instruction contains what it evaluates to. -/
  evaluate_le : ∀ id, body.tracked id = true →
    ∃ stored value, store.get? id = some stored ∧ body.evaluate id store = .ok value ∧
      value ≤ stored

section Invariant

variable {body : Body} {options : Options} {before after state : State} {id other : Nat}
  {value : Interval}

/-- An instruction that does not use a definition does not notice a change of its interval. -/
theorem evaluate_eq_of_not_mem_users (hbody : body.UsesExact) (htracked : body.tracked id = true)
    (huser : other ∉ body.users id) {left right : Store Interval}
    (hstores : ∀ definition, definition ≠ id → left.get? definition = right.get? definition) :
    body.evaluate other left = body.evaluate other right := by
  apply evaluate_congr
  intro node hnode definition hdefinition
  apply hstores
  rintro rfl
  obtain ⟨found, hfound, _⟩ := tracked_iff.mp htracked
  exact huser ((hbody definition other).mpr
    ⟨lt_size_of_node? hfound, node, hnode, hdefinition⟩)

theorem Evaluation.evaluate_after (hbody : body.UsesExact) (hbefore : body.Consistent before)
    (hevaluation : body.Evaluation options before id value after)
    (htracked : body.tracked other = true) (hpending : other ∉ after.worklist.toList) :
    body.evaluate other after.store = body.evaluate other before.store := by
  have hget := hevaluation.get?_after hbefore
  rw [hevaluation.mem_worklist_after hbefore, not_or] at hpending
  by_cases hnew : before.revised options id value = before.intervalOf id
  · -- Nothing was stored, so all intervals are as before.
    apply evaluate_congr
    intro _ _ definition _
    rw [hget]
    split
    · rename_i hdefinition
      rw [hdefinition, hnew, hbefore.get?_eq_some (hevaluation.tracked hbefore)]
    · rfl
  · apply evaluate_eq_of_not_mem_users hbody (hevaluation.tracked hbefore)
    · intro huser
      exact hpending.2 ⟨hnew, List.mem_filter.mpr ⟨huser, htracked⟩⟩
    · intro definition hdefinition
      rw [hget, if_neg hdefinition]

theorem Evaluation.settled (hbody : body.UsesExact) (hbefore : body.Consistent before)
    (hevaluation : body.Evaluation options before id value after)
    (hsettled : body.tracked other = true → other ∉ before.worklist.toList →
      body.Settled options before.store other)
    (htracked : body.tracked other = true) (hpending : other ∉ after.worklist.toList) :
    body.Settled options after.store other := by
  have hevaluate := hevaluation.evaluate_after hbody hbefore htracked hpending
  have hget := hevaluation.get?_after hbefore other
  by_cases hother : other = id
  · subst hother
    refine ⟨_, value, by rw [hget, if_pos rfl], hevaluate.trans hevaluation.evaluate,
      before.le_revised options other value, fun hwidening => ?_⟩
    exact before.revised_of_widening_eq_none hwidening other value
  · have hold : other ∉ before.worklist.toList := by
      intro hold
      exact hpending ((hevaluation.mem_worklist_after hbefore other).mpr (Or.inl ⟨hother, hold⟩))
    obtain ⟨stored, found, hstored, hfound, hle, heq⟩ := hsettled htracked hold
    refine ⟨stored, found, ?_, hevaluate.trans hfound, hle, heq⟩
    rw [hget, if_neg hother, hstored]

/-- In every state of a run, an instruction is pending or settled. -/
theorem settled_of_not_pending (hbody : body.UsesExact)
    (hreach : body.Reaches options (body.initial options) state)
    (htracked : body.tracked id = true) (hpending : id ∉ state.worklist.toList) :
    body.Settled options state.store id := by
  refine hreach.invariant (fun state => ∀ id, body.tracked id = true →
    id ∉ state.worklist.toList → body.Settled options state.store id) ?_ ?_ id htracked hpending
  · intro id htracked hpending
    exact absurd (mem_worklist_initial.mpr htracked) hpending
  · intro before evaluated value after hbefore hevaluation ih id htracked hpending
    have hconsistent := hbefore.consistent (consistent_initial body options)
    exact hevaluation.settled hbody hconsistent (ih id) htracked hpending

/-- The ranges of a function settle all its tracked instructions. -/
theorem settled_of_ranges? {function : Function} {fuel : Nat} {ranges : Ranges}
    (hbody : body.UsesExact) (hfunction : function.body = some body)
    (hranges : function.ranges? fuel options = some (.ok ranges))
    (htracked : body.tracked id = true) : body.Settled options ranges.store id := by
  obtain ⟨final, hreach, hempty, hstore⟩ := Function.exists_final_of_ranges? hfunction hranges
  rw [hstore]
  exact settled_of_not_pending hbody hreach htracked (by simp [hempty])

/-- The ranges of a function are a solution. -/
theorem solution_of_ranges? {function : Function} {fuel : Nat} {ranges : Ranges}
    (hbody : body.UsesExact) (hfunction : function.body = some body)
    (hranges : function.ranges? fuel options = some (.ok ranges)) :
    body.Solution ranges.store := by
  obtain ⟨final, hreach, _, hstore⟩ := Function.exists_final_of_ranges? hfunction hranges
  have hfinal := hreach.consistent (consistent_initial body options)
  refine ⟨hstore ▸ hfinal.isSome_get?, hstore ▸ hfinal.wellFormed, fun id htracked => ?_⟩
  obtain ⟨stored, value, hstored, hvalue, hle, _⟩ :=
    settled_of_ranges? hbody hfunction hranges htracked
  exact ⟨stored, value, hstored, hvalue, hle⟩

end Invariant

/-- Whatever the options, an instruction that is not pending between two evaluations is settled, and
the final intervals settle every tracked instruction. -/
theorem pending_or_settled_throughout {document : Document.Function} {function : Function}
    {body : Body} (hfunction : Function.ofDocument document = .ok function)
    (hbody : function.body = some body) (options : Options) :
    (∀ state, body.Reaches options (body.initial options) state →
      ∀ id, body.tracked id = true → state.worklist.contains id = false →
        body.Settled options state.store id) ∧
      ∀ fuel ranges, function.ranges? fuel options = some (.ok ranges) →
        ∀ id, body.tracked id = true → body.Settled options ranges.store id := by
  have hexact := Function.usesExact_of_ofDocument hfunction hbody
  constructor
  · intro state hreach id htracked hpending
    have hstate := Reaches.consistent hreach (consistent_initial body options)
    exact settled_of_not_pending hexact hreach htracked
      (hstate.faithful.contains_eq_false_iff.mp hpending)
  · intro fuel ranges hranges id htracked
    exact settled_of_ranges? hexact hbody hranges htracked

/-! ## A counting loop -/

open Document in
/-- A loop that counts up from zero: `i = phi [0], [next]` and `next = add i, 1`. -/
def countingLoop : Document.Function :=
  let ty : TypeExpr := .int 32
  let number (value : String) : Operand := .constant ⟨ty, .int value⟩
  { name := "count"
    params := []
    ret := .void
    blocks :=
      [⟨0, none, [], ⟨.void, 0, none, .goto 1⟩⟩,
        ⟨1, none,
          [⟨ty, 1, some "i", .phi [⟨number "0", 0⟩, ⟨.instruction ty 2, 1⟩]⟩,
            ⟨ty, 2, some "next", .binary "add" (.instruction ty 1) (number "1")⟩],
          ⟨.void, 3, none, .goto 1⟩⟩] }

/-- The checked body of the counting loop. -/
def countingBody : Body :=
  { blocks := [⟨0, none, [], .goto 1⟩, ⟨1, none, [0, 1], .goto 1⟩]
    nodes :=
      #[⟨1, some "i", .int 32,
          .phi [(.constant (.int 32 0) (.int 32), 0), (.register 1 (.int 32), 1)]⟩,
        ⟨2, some "next", .int 32,
          .binary .add (.register 0 (.int 32)) (.constant (.int 32 1) (.int 32))⟩]
    uses := ⟨#[[1], [0]]⟩ }

/-- The checked counting loop. -/
def countingFunction : Function := ⟨"count", [], .void, some countingBody⟩

/-- The ranges of the counting loop with the default options. -/
def countingRanges : Ranges :=
  ⟨⟨[(0, ⟨.finite 0, .posInf⟩), (1, ⟨.finite 1, .posInf⟩)], by decide⟩, 9, []⟩

theorem ofDocument_countingLoop : Function.ofDocument countingLoop = .ok countingFunction := rfl

theorem ranges?_countingFunction :
    countingFunction.ranges? 20 .default = some (.ok countingRanges) := rfl

/-- Both instructions of the counting loop end up settled. -/
theorem countingLoop_settled :
    Function.ofDocument countingLoop = .ok countingFunction ∧
      countingFunction.body = some countingBody ∧
      countingBody.tracked 0 = true ∧ countingBody.Settled .default countingRanges.store 0 ∧
      countingBody.tracked 1 = true ∧ countingBody.Settled .default countingRanges.store 1 :=
  have hsettled := (pending_or_settled_throughout ofDocument_countingLoop rfl .default).2 20
    countingRanges ranges?_countingFunction
  ⟨ofDocument_countingLoop, rfl, rfl, hsettled 0 rfl, rfl, hsettled 1 rfl⟩

end Body

end ValueRange

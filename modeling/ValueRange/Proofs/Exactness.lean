import ValueRange.Proofs.Stability

/-!
# How exact the final intervals are

When a run is over, evaluating an instruction once more gives what its last evaluation gave, because
none of its operands has changed since. What is stored may be larger: if the last evaluation was
beyond the threshold and moved a finite end outward, the stored end is at infinity. This happens
without any loop. An instruction that comes before a chain of definitions is evaluated again each
time the end of the chain comes closer, and nothing evaluates it again after it was widened.
-/

namespace ValueRange

namespace Interval

/-- A finite end lies further out than that of a previous interval with values. -/
def Overshoots (current previous : Interval) : Prop :=
  previous ≠ empty ∧
    (.negInf < current.lower ∧ current.lower < previous.lower ∨
      previous.upper < current.upper ∧ current.upper < .posInf)

theorem not_overshoots_self (interval : Interval) : ¬ interval.Overshoots interval := by
  rintro ⟨_, ⟨_, hlower⟩ | ⟨hupper, _⟩⟩
  · exact lt_irrefl _ hlower
  · exact lt_irrefl _ hupper

/-- Widening keeps an end or moves it to infinity. -/
theorem widen_keeps_or_gives_up (current previous : Interval) :
    ((current.widen previous).lower = current.lower ∨ (current.widen previous).lower = .negInf) ∧
      ((current.widen previous).upper = current.upper ∨
        (current.widen previous).upper = .posInf) := by
  unfold widen
  split
  · exact ⟨Or.inl rfl, Or.inl rfl⟩
  · constructor
    · dsimp only
      split
      · exact Or.inr rfl
      · exact Or.inl rfl
    · dsimp only
      split
      · exact Or.inr rfl
      · exact Or.inl rfl

theorem widen_eq_self_iff {current previous : Interval} :
    current.widen previous = current ↔ ¬ current.Overshoots previous := by
  by_cases hprevious : previous = empty
  · simp [widen, Overshoots, hprevious]
  have hlower :
      (if current.lower < previous.lower then .negInf else current.lower) = current.lower ↔
      ¬ (.negInf < current.lower ∧ current.lower < previous.lower) := by
    split
    · rename_i hmoved
      rw [and_iff_left hmoved, not_lt, Bound.le_negInf, eq_comm]
    · rename_i hmoved
      simp [hmoved]
  have hupper :
      (if previous.upper < current.upper then .posInf else current.upper) = current.upper ↔
      ¬ (previous.upper < current.upper ∧ current.upper < .posInf) := by
    split
    · rename_i hmoved
      rw [and_iff_right hmoved, not_lt, Bound.posInf_le, eq_comm]
    · rename_i hmoved
      simp [hmoved]
  rw [Interval.ext_iff, widen, if_neg hprevious]
  dsimp only
  rw [hlower, hupper, Overshoots, and_iff_right hprevious, not_or]

end Interval

namespace State

variable {state : State} {options : Options} {id : Nat} {value : Interval}

theorem revised_keeps_or_gives_up (state : State) (options : Options) (id : Nat)
    (value : Interval) :
    ((state.revised options id value).lower = value.lower ∨
        (state.revised options id value).lower = .negInf) ∧
      ((state.revised options id value).upper = value.upper ∨
        (state.revised options id value).upper = .posInf) := by
  unfold revised
  split
  · exact value.widen_keeps_or_gives_up _
  · exact ⟨Or.inl rfl, Or.inl rfl⟩

/-- An evaluation stores what it computed unless it is beyond the threshold and overshoots. -/
theorem revised_eq_self_iff :
    state.revised options id value = value ↔
      ¬ (options.exceeded (state.visitsOf id + 1) = true ∧
        value.Overshoots (state.intervalOf id)) := by
  have hsame : value.Overshoots (state.intervalOf id) → value ≠ state.intervalOf id := by
    rintro hovershoots rfl
    exact Interval.not_overshoots_self _ hovershoots
  unfold revised
  by_cases hwidens : options.exceeded (state.visitsOf id + 1) = true ∧ value ≠ state.intervalOf id
  · rw [if_pos (by simpa using hwidens), Interval.widen_eq_self_iff, and_iff_right hwidens.1]
  · rw [if_neg (by simpa using hwidens), eq_self_iff_true, true_iff]
    rintro ⟨hexceeded, hovershoots⟩
    exact hwidens ⟨hexceeded, hsame hovershoots⟩

end State

namespace Body

/-- The evaluation of `id` to `value` in the state `before` is the last one of `id` on the way to
the state `final`. -/
structure LastEvaluation (body : Body) (options : Options) (final : State) (id : Nat)
    (before : State) (value : Interval) : Prop where
  /-- The state is one of the run. -/
  reached : body.Reaches options (body.initial options) before
  /-- The instruction is evaluated there, and the run goes on to the final state. -/
  evaluated : ∃ after, body.Step options before after ∧
    body.Evaluation options before id value after ∧ body.Reaches options after final
  /-- The evaluation completes the count. -/
  visits : final.visitsOf id = before.visitsOf id + 1

section LastEvaluations

variable {body : Body} {options : Options} {state : State} {id : Nat}

/-- An instruction that is not pending evaluates to what its last evaluation gave, and has the
interval which that evaluation stored. -/
theorem exists_lastEvaluation (hbody : body.UsesExact)
    (hreach : body.Reaches options (body.initial options) state)
    (htracked : body.tracked id = true) (hpending : id ∉ state.worklist.toList) :
    ∃ before value, body.LastEvaluation options state id before value ∧
      body.evaluate id state.store = .ok value ∧
      state.store.get? id = some (before.revised options id value) := by
  induction hreach with
  | refl => exact absurd (mem_worklist_initial.mpr htracked) hpending
  | @tail middle next hmiddle hstep ih =>
      obtain ⟨evaluated, outcome, hevaluation⟩ := hstep.exists_evaluation
      have hconsistent := Reaches.consistent hmiddle (consistent_initial body options)
      have hevaluate := hevaluation.evaluate_after hbody hconsistent htracked hpending
      have hget := hevaluation.get?_after hconsistent id
      have hvisits := hevaluation.visitsOf_after id
      by_cases hid : id = evaluated
      · -- The step itself is the last evaluation.
        subst hid
        rw [if_pos rfl] at hget hvisits
        exact ⟨middle, outcome, ⟨hmiddle, ⟨next, hstep, hevaluation, .refl⟩, hvisits⟩,
          hevaluate.trans hevaluation.evaluate, hget⟩
      · -- The step evaluates something else, and changes no operand.
        rw [if_neg hid] at hget hvisits
        have hearlier : id ∉ middle.worklist.toList := by
          intro hearlier
          exact hpending ((hevaluation.mem_worklist_after hconsistent id).mpr
            (Or.inl ⟨hid, hearlier⟩))
        obtain ⟨before, value, hlast, hvalue, hstored⟩ := ih hearlier
        obtain ⟨after, hfirst, heffect, hafter⟩ := hlast.evaluated
        exact ⟨before, value,
          ⟨hlast.reached, ⟨after, hfirst, heffect, hafter.tail hstep⟩, hvisits.trans hlast.visits⟩,
          hevaluate.trans hvalue, hget.trans hstored⟩

end LastEvaluations

/-- An instruction evaluates under the final intervals to what its last evaluation gave. Each end of
its final interval is the end of that or infinite, and it is exactly that unless the last evaluation
was beyond the threshold and moved a finite end outward. -/
theorem stored_eq_evaluated_iff {document : Document.Function} {function : Function} {body : Body}
    {options : Options} {fuel : Nat} {ranges : Ranges}
    (hfunction : Function.ofDocument document = .ok function)
    (hbody : function.body = some body)
    (hranges : function.ranges? fuel options = some (.ok ranges)) :
    ∃ final, body.Reaches options (body.initial options) final ∧
      final.worklist.toList = [] ∧ ranges.store = final.store ∧
      ∀ id, body.tracked id = true → ∃ before value stored,
        body.LastEvaluation options final id before value ∧
        body.evaluate id ranges.store = .ok value ∧ ranges.store.get? id = some stored ∧
        (stored.lower = value.lower ∨ stored.lower = .negInf) ∧
        (stored.upper = value.upper ∨ stored.upper = .posInf) ∧
        (stored = value ↔
          ¬ (options.exceeded (final.visitsOf id) = true ∧
            value.Overshoots (before.intervalOf id))) := by
  have hexact := Function.usesExact_of_ofDocument hfunction hbody
  obtain ⟨final, hreach, hempty, hstore⟩ := Function.exists_final_of_ranges? hbody hranges
  refine ⟨final, hreach, hempty, hstore, fun id htracked => ?_⟩
  obtain ⟨before, value, hlast, hvalue, hstored⟩ :=
    exists_lastEvaluation hexact hreach htracked (by simp [hempty])
  obtain ⟨hlower, hupper⟩ := before.revised_keeps_or_gives_up options id value
  refine ⟨before, value, _, hlast, hstore ▸ hvalue, hstore ▸ hstored, hlower, hupper, ?_⟩
  rw [hlast.visits, State.revised_eq_self_iff]

/-! ## A chain of choices in reverse order -/

open Document in
/-- Four definitions in blocks that are listed in the reverse of the order in which they run:
`x = select p, 0, a`, `a = select p, 1, b`, `b = select p, 2, c` and `c = add 1, 2`. -/
def reversedChain : Document.Function :=
  let ty : TypeExpr := .int 32
  let number (value : String) : Operand := .constant ⟨ty, .int value⟩
  let choice (name value : String) (id source : UInt64) : Document.Instruction :=
    ⟨ty, id, some name, .select (.argument (.int 1) 0) (number value) (.instruction ty source)⟩
  { name := "chain"
    params := [⟨some "p", .int 1⟩]
    ret := ty
    blocks :=
      [⟨0, none, [], ⟨.void, 0, none, .goto 4⟩⟩,
        ⟨1, none, [choice "x" "0" 1 2], ⟨.void, 5, none, .ret (some (.instruction ty 1))⟩⟩,
        ⟨2, none, [choice "a" "1" 2 3], ⟨.void, 6, none, .goto 1⟩⟩,
        ⟨3, none, [choice "b" "2" 3 4], ⟨.void, 7, none, .goto 2⟩⟩,
        ⟨4, none, [⟨ty, 4, some "c", .binary "add" (number "1") (number "2")⟩],
          ⟨.void, 8, none, .goto 3⟩⟩] }

/-- The checked body of the chain. -/
def reversedBody : Body :=
  let ty : Ty := .int 32
  let number (value : Int64) : Value := .constant (.int 32 value) ty
  let choice (value : Int64) (source : Nat) : Instruction :=
    .select (.argument 0 .bool) (number value) (.register source ty)
  { blocks :=
      [⟨0, none, [], .goto 4⟩, ⟨1, none, [0], .ret (some (.register 0 ty))⟩,
        ⟨2, none, [1], .goto 1⟩, ⟨3, none, [2], .goto 2⟩, ⟨4, none, [3], .goto 3⟩]
    nodes :=
      #[⟨1, some "x", ty, choice 0 1⟩, ⟨2, some "a", ty, choice 1 2⟩, ⟨3, some "b", ty, choice 2 3⟩,
        ⟨4, some "c", ty, .binary .add (number 1) (number 2)⟩]
    uses := ⟨#[[], [0], [1], [2]]⟩ }

/-- The checked chain. -/
def reversedFunction : Function := ⟨"chain", [⟨some "p", .bool⟩], .int 32, some reversedBody⟩

/-- The ranges of the chain with the default options. -/
def reversedRanges : Ranges :=
  ⟨⟨[(0, ⟨.finite 0, .posInf⟩), (1, ⟨.finite 1, .finite 3⟩), (2, ⟨.finite 2, .finite 3⟩),
    (3, ⟨.finite 3, .finite 3⟩)], by decide⟩, 10, []⟩

theorem ofDocument_reversedChain : Function.ofDocument reversedChain = .ok reversedFunction := rfl

theorem ranges?_reversedFunction :
    reversedFunction.ranges? 20 .default = some (.ok reversedRanges) := rfl

/-- `a` keeps the interval that it evaluates to. The last evaluation of `x` was beyond the threshold
and moved the upper end outward. -/
theorem reversedChain_last_evaluations :
    Function.ofDocument reversedChain = .ok reversedFunction ∧
      reversedFunction.body = some reversedBody ∧
      reversedFunction.ranges? 20 .default = some (.ok reversedRanges) ∧
      reversedBody.tracked 0 = true ∧ reversedBody.tracked 1 = true ∧
      ∃ final,
        (∃ before value, reversedBody.LastEvaluation .default final 0 before value ∧
          Options.default.exceeded (final.visitsOf 0) = true ∧
          value.Overshoots (before.intervalOf 0)) ∧
        ∃ before value, reversedBody.LastEvaluation .default final 1 before value ∧
          ¬ (Options.default.exceeded (final.visitsOf 1) = true ∧
            value.Overshoots (before.intervalOf 1)) := by
  obtain ⟨final, _, _, _, hids⟩ :=
    stored_eq_evaluated_iff ofDocument_reversedChain rfl ranges?_reversedFunction
  refine ⟨ofDocument_reversedChain, rfl, ranges?_reversedFunction, rfl, rfl, final, ?_, ?_⟩
  · obtain ⟨before, value, stored, hlast, hvalue, hstored, _, _, hexact⟩ := hids 0 rfl
    cases hvalue
    cases hstored
    exact ⟨before, _, hlast, not_not.mp (mt hexact.mpr (by decide))⟩
  · obtain ⟨before, value, stored, hlast, hvalue, hstored, _, _, hexact⟩ := hids 1 rfl
    cases hvalue
    cases hstored
    exact ⟨before, _, hlast, hexact.mp rfl⟩

/-- With the default options the final interval of `x` is not what `x` evaluates to under the final
intervals: its upper end is infinite, although `x` depends on no loop. -/
theorem reversedChain_not_stable :
    Function.ofDocument reversedChain = .ok reversedFunction ∧
      reversedFunction.body = some reversedBody ∧
      reversedFunction.ranges? 20 .default = some (.ok reversedRanges) ∧
      reversedBody.tracked 0 = true ∧
      reversedRanges.store.get? 0 = some ⟨.finite 0, .posInf⟩ ∧
      reversedBody.evaluate 0 reversedRanges.store = .ok ⟨.finite 0, .finite 3⟩ :=
  ⟨ofDocument_reversedChain, rfl, ranges?_reversedFunction, rfl, rfl, rfl⟩

end Body

end ValueRange

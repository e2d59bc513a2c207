import Mathlib.Data.List.Sort
import ValueRange.Analysis.Report
import ValueRange.Listing
import ValueRange.Proofs.Stability

/-!
# Comparison of functions

Functions are compared without their def-use graphs, although these decide in which order the
analysis evaluates instructions. The comparison is sound nevertheless: a list that ascends is
determined by its members, and the users of a definition follow from the arena. So checked functions
that compare equal have the same users everywhere, and neither a run nor a text tells them apart.
-/

namespace ValueRange

namespace Body

theorem beq_iff {left right : Body} :
    (left == right) = true ↔ left.blocks = right.blocks ∧ left.nodes = right.nodes := by
  rw [BEq.beq, instBEq, Bool.and_eq_true, decide_eq_true_iff, decide_eq_true_iff]

/-- The users are those that the arena gives, in ascending order. -/
structure Indexed (body : Body) : Prop where
  /-- The users of a definition are listed, and nothing else is. -/
  exact : body.UsesExact
  /-- The users ascend. -/
  ascending : ∀ definition, (body.users definition).Pairwise (· < ·)

theorem indexed_of_ofNodes {blocks : List Block} {nodes : List Node} {body : Body}
    (hbody : ofNodes blocks nodes = .ok body) : body.Indexed :=
  ⟨usesExact_of_ofNodes hbody, pairwise_users_of_ofNodes hbody⟩

/-- Two bodies have the same blocks and instructions, and the same users of every position. Their
graphs may give these users in different orders. -/
structure Resembles (left right : Body) : Prop where
  /-- The blocks are the same. -/
  blocks : left.blocks = right.blocks
  /-- The arenas are the same. -/
  nodes : left.nodes = right.nodes
  /-- The users are the same. -/
  users : ∀ definition, left.users definition = right.users definition

section Resemblance

variable {left right : Body}

/-- The graphs need not be compared if they belong to the arena. -/
theorem Indexed.resembles (hleft : left.Indexed) (hright : right.Indexed)
    (hequal : (left == right) = true) : left.Resembles right := by
  obtain ⟨hblocks, hnodes⟩ := beq_iff.mp hequal
  refine ⟨hblocks, hnodes, fun definition => ?_⟩
  apply (hleft.ascending definition).eq_of_mem_iff (hright.ascending definition)
  intro user
  rw [hleft.exact, hright.exact, node?, node?, hnodes]

variable (hresembles : left.Resembles right)

include hresembles

theorem Resembles.node?_eq (id : Nat) : left.node? id = right.node? id := by
  rw [node?, node?, hresembles.nodes]

theorem Resembles.node_eq (id : Nat) : left.node id = right.node id := by
  rw [node, node, hresembles.node?_eq]

theorem Resembles.tracked_eq : left.tracked = right.tracked := by
  funext id
  simp only [tracked, hresembles.node?_eq]

theorem Resembles.findTrackedUsers_eq (id : Nat) :
    left.findTrackedUsers id = right.findTrackedUsers id := by
  simp only [findTrackedUsers, hresembles.users, hresembles.node_eq]

/-- A run takes from the def-use graph no more than the users of a position. -/
theorem Resembles.runsLike : left.RunsLike right where
  trackedIds := by simp only [trackedIds, ids, hresembles.nodes, hresembles.tracked_eq]
  evaluate id store := by simp only [evaluate, hresembles.node_eq]
  transferEvents id store := by simp only [transferEvents, hresembles.node?_eq]
  findTrackedUsers := hresembles.findTrackedUsers_eq

theorem Resembles.instruction_eq (params : List Parameter) :
    (⟨params, left⟩ : Printer).instruction = (⟨params, right⟩ : Printer).instruction := by
  obtain ⟨blocks, nodes, uses⟩ := left
  obtain ⟨_, _, others⟩ := right
  obtain ⟨rfl, rfl, _⟩ := hresembles
  rfl

theorem Resembles.definitionEntries_eq (params : List Parameter) :
    Function.definitionEntries ⟨params, left⟩ = Function.definitionEntries ⟨params, right⟩ := by
  funext id
  simp only [Function.definitionEntries, hresembles.findTrackedUsers_eq, hresembles.instruction_eq]

end Resemblance

end Body

namespace Function

theorem beq_iff {left right : Function} :
    (left == right) = true ↔ left.name = right.name ∧ left.params = right.params ∧
      left.ret = right.ret ∧ (left.body == right.body) = true := by
  obtain ⟨name, params, ret, body⟩ := left
  obtain ⟨name', params', ret', body'⟩ := right
  change (name == name' && (params == params' && (ret == ret' && body == body'))) = true ↔ _
  simp only [Bool.and_eq_true, beq_iff_eq]

/-- Neither a listing nor the analysis tells two functions apart. -/
structure Interchangeable (left right : Function) : Prop where
  /-- Every position has the same users, unless both are declarations. -/
  users : ∀ id, (left.body.map fun body => body.users id) =
    right.body.map fun body => body.users id
  /-- They are announced alike. -/
  announcement : left.announcement = right.announcement
  /-- Their instructions are counted alike. -/
  countListing : left.countListing = right.countListing
  /-- Their instructions are listed alike. -/
  instructionListing : left.instructionListing = right.instructionListing
  /-- Their tracked instructions are listed with the same users. -/
  userListing : left.userListing = right.userListing
  /-- With the same fuel their analyses have the same outcome, be it intervals with a record, a
  fault, or that the fuel does not suffice. -/
  ranges? : ∀ fuel options, left.ranges? fuel options = right.ranges? fuel options
  /-- An outcome is reported alike. -/
  report : ∀ ranges, left.report ranges = right.report ranges
  /-- A record is shown alike. -/
  trace : ∀ ranges, left.trace ranges = right.trace ranges
  /-- An outcome is logged alike. -/
  records : ∀ depth outcome, left.records depth outcome = right.records depth outcome

/-- Two functions have the same name and parameters, and bodies that resemble each other. -/
structure Resembles (left right : Function) : Prop where
  /-- The names are the same. -/
  name : left.name = right.name
  /-- The parameters are the same. -/
  params : left.params = right.params
  /-- Both are declarations, or the bodies resemble each other. -/
  body : Option.Rel Body.Resembles left.body right.body

theorem resembles_of_beq {left right : Function}
    (hleft : ∀ body, left.body = some body → body.Indexed)
    (hright : ∀ body, right.body = some body → body.Indexed) (hequal : (left == right) = true) :
    left.Resembles right := by
  obtain ⟨hname, hparams, _, hbody⟩ := beq_iff.mp hequal
  refine ⟨hname, hparams, ?_⟩
  cases hbodies : left.body with
  | none =>
      cases hothers : right.body with
      | none => exact .none
      | some other => simp [hbodies, hothers] at hbody
  | some body =>
      cases hothers : right.body with
      | none => simp [hbodies, hothers] at hbody
      | some other =>
          rw [hbodies, hothers, Option.some_beq_some] at hbody
          exact .some ((hleft body hbodies).resembles (hright other hothers) hbody)

theorem indexed_of_ofDocument {document : Document.Function} {function : Function}
    (hfunction : ofDocument document = .ok function) (body : Body)
    (hbody : function.body = some body) : body.Indexed := by
  obtain ⟨blocks, nodes, hnodes⟩ := exists_ofNodes_of_ofDocument hfunction hbody
  exact Body.indexed_of_ofNodes hnodes

section Texts

variable {left right : Function} (hresembles : left.Resembles right)

include hresembles

theorem Resembles.userEntries_eq : left.userEntries = right.userEntries := by
  obtain ⟨name, params, ret, body⟩ := left
  obtain ⟨_, _, ret', other⟩ := right
  obtain ⟨rfl, rfl, hbody⟩ := hresembles
  cases hbody with
  | none => rfl
  | @some body other hbody =>
      change (body.trackedIds.mapM (definitionEntries ⟨params, body⟩) >>= fun entries => _) =
        other.trackedIds.mapM (definitionEntries ⟨params, other⟩) >>= fun entries => _
      rw [hbody.runsLike.trackedIds, hbody.definitionEntries_eq]

theorem Resembles.interchangeable : left.Interchangeable right := by
  have huserListing : left.userListing = right.userListing := by
    unfold userListing
    rw [hresembles.name, hresembles.userEntries_eq]
  obtain ⟨name, params, ret, body⟩ := left
  obtain ⟨_, _, ret', other⟩ := right
  obtain ⟨rfl, rfl, hbody⟩ := hresembles
  cases hbody with
  | none => constructor <;> intros <;> rfl
  | @some body other hbody =>
      have hruns := hbody.runsLike
      obtain ⟨blocks, nodes, uses⟩ := body
      obtain ⟨_, _, others⟩ := other
      obtain ⟨rfl, rfl, husers⟩ := hbody
      -- The other texts are written from blocks and arena alone, and these are shared.
      exact {
        users := fun id => congrArg some (husers id)
        announcement := rfl
        countListing := rfl
        instructionListing := rfl
        userListing := huserListing
        ranges? := ranges?_eq_of_runsLike (.some hruns)
        report := fun _ => rfl
        trace := fun _ => rfl
        records := fun _ _ => rfl }

end Texts

/-- Checked functions that compare equal have the same users at every position, though the graphs
are not compared. They are listed alike. Whatever the options, both analyses end after equally many
evaluations or neither ends. If they end, it is with the same intervals and the same record or with
the same fault, so reports and traces are the same too. -/
theorem equal_functions_are_interchangeable {document other : Document.Function}
    {left right : Function} (hleft : ofDocument document = .ok left)
    (hright : ofDocument other = .ok right) (hequal : (left == right) = true) :
    left.Interchangeable right :=
  (resembles_of_beq (indexed_of_ofDocument hleft) (indexed_of_ofDocument hright)
    hequal).interchangeable

open Document in
/-- The counting loop with its constants spelled and its terminators numbered in another way; one of
the terminators has a name. -/
def respelledLoop : Document.Function :=
  let ty : TypeExpr := .int 32
  let number (value : String) : Operand := .constant ⟨ty, .int value⟩
  { name := "count"
    params := []
    ret := .void
    blocks :=
      [⟨0, none, [], ⟨.void, 7, some "enter", .goto 1⟩⟩,
        ⟨1, none,
          [⟨ty, 1, some "i", .phi [⟨number "-0", 0⟩, ⟨.instruction ty 2, 1⟩]⟩,
            ⟨ty, 2, some "next", .binary "add" (.instruction ty 1) (number "+01")⟩],
          ⟨.void, 0, none, .goto 1⟩⟩] }

/-- The loop and its other spelling are checked to equal functions. -/
theorem respelledLoop_interchangeable :
    Body.countingLoop ≠ respelledLoop ∧
      ofDocument Body.countingLoop = .ok Body.countingFunction ∧
      ∃ function, ofDocument respelledLoop = .ok function ∧
        (Body.countingFunction == function) = true ∧
        Body.countingFunction.Interchangeable function := by
  have hspelled : ofDocument respelledLoop = .ok Body.countingFunction := rfl
  have hequal : (Body.countingFunction == Body.countingFunction) = true := by decide
  exact ⟨by decide, Body.ofDocument_countingLoop, _, hspelled, hequal,
    equal_functions_are_interchangeable Body.ofDocument_countingLoop hspelled hequal⟩

/-- A body that has lost its edges compares equal as well, but its analysis stops too early. -/
example :
    let forgetful : Body := { Body.countingBody with uses := .empty 2 }
    (forgetful == Body.countingBody) = true ∧
      forgetful.users 0 ≠ Body.countingBody.users 0 ∧
      ((forgetful.run .default 20 (forgetful.initial .default)).map fun outcome =>
          outcome.toOption.map fun state => state.store.toList) =
        some (some [(0, ⟨.finite 0, .finite 0⟩), (1, ⟨.finite 1, .finite 1⟩)]) := by
  decide

end Function

end ValueRange

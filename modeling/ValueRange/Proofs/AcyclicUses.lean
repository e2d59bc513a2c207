import Mathlib.Data.Finset.Card
import ValueRange.Proofs.Convergence
import ValueRange.Proofs.Exactness
import ValueRange.Proofs.SingleSweep

/-!
# Bodies without cyclic uses

If no tracked instruction depends on its own result, the number of the instructions that depend on it
ranks every instruction above its users, whatever the order of the arena. So the run ends, with or
without widening, although intervals may shrink on the way. Without widening it ends in a store that
evaluation leaves unchanged. There is only one: going along the uses, an instruction has the same
interval in any two such stores if all that it reads has.
-/

namespace ValueRange

namespace Body

/-- A tracked instruction reads the result of a tracked one. -/
def Feeds (body : Body) (definition user : Nat) : Prop :=
  body.tracked definition = true ∧ body.tracked user = true ∧
    ∃ node, body.node? user = some node ∧ definition ∈ node.instruction.registers

/-- No tracked instruction depends on its own result. -/
def Acyclic (body : Body) : Prop := ∀ id, ¬ Relation.TransGen body.Feeds id id

/-- A store for the tracked instructions that evaluation leaves unchanged. -/
structure Unchanging (body : Body) (store : Store Interval) : Prop where
  /-- Exactly the tracked instructions have an interval. -/
  isSome_get? : ∀ id, (store.get? id).isSome = body.tracked id
  /-- Every tracked instruction evaluates to its interval. -/
  evaluate_eq : ∀ id, body.tracked id = true →
    ∃ stored, store.get? id = some stored ∧ body.evaluate id store = .ok stored

/-! ## Ranks from the use relation -/

section Ranks

variable {body : Body} {rank : Nat → Nat} {definition user id : Nat}

theorem UsesExact.feeds_iff (hexact : body.UsesExact) :
    body.Feeds definition user ↔
      definition ∈ body.trackedIds ∧ user ∈ body.trackedUsers definition := by
  rw [mem_trackedIds, trackedUsers, List.mem_filter, hexact, Feeds]
  constructor
  · rintro ⟨hdefinition, huser, hreads⟩
    obtain ⟨node, hnode, _⟩ := tracked_iff.mp hdefinition
    exact ⟨hdefinition, ⟨lt_size_of_node? hnode, hreads⟩, huser⟩
  · rintro ⟨hdefinition, ⟨_, hreads⟩, huser⟩
    exact ⟨hdefinition, huser, hreads⟩

open Classical in
/-- The number of tracked instructions that depend on an instruction. -/
noncomputable def dependents (body : Body) (id : Nat) : Nat :=
  (body.trackedIds.toFinset.filter fun user => Relation.TransGen body.Feeds id user).card

theorem dependents_le (body : Body) (id : Nat) : body.dependents id ≤ body.trackedIds.length := by
  classical
  unfold dependents
  exact (Finset.card_filter_le _ _).trans (List.toFinset_card_le _)

/-- Without cycles, an instruction has more dependents than any of its users. -/
theorem Acyclic.dependents_lt (hacyclic : body.Acyclic) (hfeeds : body.Feeds definition user) :
    body.dependents user < body.dependents definition := by
  classical
  have huser : user ∈ body.trackedIds.toFinset :=
    List.mem_toFinset.mpr (mem_trackedIds.mpr hfeeds.2.1)
  unfold dependents
  refine Finset.card_lt_card ⟨fun other hother => ?_, fun hsubset => ?_⟩
  · obtain ⟨htracked, hdepends⟩ := Finset.mem_filter.mp hother
    exact Finset.mem_filter.mpr ⟨htracked, .head hfeeds hdepends⟩
  · -- The user itself depends on the definition, but not on itself.
    have hself := hsubset (Finset.mem_filter.mpr ⟨huser, .single hfeeds⟩)
    exact hacyclic user (Finset.mem_filter.mp hself).2

theorem Acyclic.rankedBy (hacyclic : body.Acyclic) (hexact : body.UsesExact) :
    body.RankedBy body.dependents := fun _ hdefinition _ huser =>
  hacyclic.dependents_lt (hexact.feeds_iff.mpr ⟨hdefinition, huser⟩)

theorem RankedBy.acyclic (hranked : body.RankedBy rank) (hexact : body.UsesExact) :
    body.Acyclic := by
  have hlower : ∀ {first last}, Relation.TransGen body.Feeds first last →
      rank last < rank first := by
    intro first last hdepends
    induction hdepends with
    | single hfeeds =>
        obtain ⟨hdefinition, huser⟩ := hexact.feeds_iff.mp hfeeds
        exact hranked _ hdefinition _ huser
    | tail _ hfeeds ih =>
        obtain ⟨hdefinition, huser⟩ := hexact.feeds_iff.mp hfeeds
        exact (hranked _ hdefinition _ huser).trans ih
  intro id hcycle
  exact Nat.lt_irrefl _ (hlower hcycle)

end Ranks

/-! ## The only unchanging store -/

section Uniqueness

variable {body : Body} {store left right : Store Interval} {id : Nat}

theorem Unchanging.get?_untracked (hstore : body.Unchanging store)
    (hid : ¬ body.tracked id = true) : store.get? id = none := by
  rw [← Option.isNone_iff_eq_none, ← Option.isSome_eq_false_iff, hstore.isSome_get?]
  exact Bool.eq_false_iff.mpr hid

/-- Without cycles, at most one store is left unchanged by evaluation. -/
theorem Acyclic.eq_of_unchanging (hacyclic : body.Acyclic) (hleft : body.Unchanging left)
    (hright : body.Unchanging right) : left = right := by
  refine Store.ext_get? fun id => ?_
  -- What feeds an instruction has more dependents than it, and none has more than there are.
  induction hheight : body.trackedIds.length - body.dependents id using Nat.strong_induction_on
    generalizing id with
  | _ height ih =>
      by_cases htracked : body.tracked id = true
      · have hevaluate : body.evaluate id left = body.evaluate id right := by
          refine evaluate_congr fun node hnode definition hdefinition => ?_
          by_cases hread : body.tracked definition = true
          · have hmore := hacyclic.dependents_lt ⟨hread, htracked, node, hnode, hdefinition⟩
            have hbound := body.dependents_le definition
            exact ih _ (by omega) definition rfl
          · rw [hleft.get?_untracked hread, hright.get?_untracked hread]
        obtain ⟨stored, hstored, hvalue⟩ := hleft.evaluate_eq id htracked
        obtain ⟨stored', hstored', hvalue'⟩ := hright.evaluate_eq id htracked
        rw [hevaluate, hvalue'] at hvalue
        rw [hstored, hstored', Except.ok.inj hvalue]
      · rw [hleft.get?_untracked htracked, hright.get?_untracked htracked]

/-- Without widening, the ranges of a function are left unchanged by evaluation. -/
theorem unchanging_of_ranges? {function : Function} {options : Options} {fuel : Nat}
    {ranges : Ranges} (hexact : body.UsesExact) (hbody : function.body = some body)
    (hwidening : options.widening = none)
    (hranges : function.ranges? fuel options = some (.ok ranges)) :
    body.Unchanging ranges.store where
  isSome_get? := (solution_of_ranges? hexact hbody hranges).isSome_get?
  evaluate_eq id htracked := by
    obtain ⟨stored, value, hstored, hvalue, _, heq⟩ :=
      settled_of_ranges? hexact hbody hranges htracked
    exact ⟨stored, hstored, heq hwidening ▸ hvalue⟩

end Uniqueness

/-- If no tracked instruction depends on its own result, the analysis ends, in whatever order the
arena lists the instructions. One bound on the evaluations serves all options. Without widening and
without a fault, the intervals are the only store for the tracked instructions that evaluation leaves
unchanged. -/
theorem acyclic_uses_terminate_at_only_fixpoint {document : Document.Function} {function : Function}
    {body : Body} (hfunction : Function.ofDocument document = .ok function)
    (hbody : function.body = some body) (hacyclic : body.Acyclic) :
    (∃ fuel, ∀ options, (function.ranges? fuel options).isSome = true) ∧
      ∀ options fuel ranges, options.widening = none →
        function.ranges? fuel options = some (.ok ranges) →
        ∀ store, body.Unchanging store ↔ store = ranges.store := by
  have hexact := Function.usesExact_of_ofDocument hfunction hbody
  constructor
  · refine ⟨(body.trackedIds.map fun id => body.cascade (body.dependents id)).sum,
      fun options => ?_⟩
    rw [Function.ranges?_of_body hbody, Option.isSome_map]
    exact (hacyclic.rankedBy hexact).isSome_run options
  · intro options fuel ranges hwidening hranges store
    have hfinal := unchanging_of_ranges? hexact hbody hwidening hranges
    exact ⟨fun hstore => hacyclic.eq_of_unchanging hstore hfinal, fun heq => heq ▸ hfinal⟩

/-- The ranges of the chain without widening. -/
def reversedPlainRanges : Ranges :=
  ⟨⟨[(0, ⟨.finite 0, .finite 3⟩), (1, ⟨.finite 1, .finite 3⟩), (2, ⟨.finite 2, .finite 3⟩),
    (3, ⟨.finite 3, .finite 3⟩)], by decide⟩, 10, []⟩

/-- In the chain of choices every instruction but the last one uses a later one. Its analysis ends
with any threshold, and without one it ends in the only unchanging store. -/
theorem reversedChain_only_fixpoint :
    Function.ofDocument reversedChain = .ok reversedFunction ∧ reversedBody.Acyclic ∧
      (∃ fuel, ∀ options, (reversedFunction.ranges? fuel options).isSome = true) ∧
      reversedFunction.ranges? 20 ⟨false, none⟩ = some (.ok reversedPlainRanges) ∧
      ∀ store, reversedBody.Unchanging store ↔ store = reversedPlainRanges.store := by
  have hexact : reversedBody.UsesExact :=
    Function.usesExact_of_ofDocument ofDocument_reversedChain rfl
  have hranked : reversedBody.RankedBy id := by decide
  have hacyclic := hranked.acyclic hexact
  have hranges : reversedFunction.ranges? 20 ⟨false, none⟩ = some (.ok reversedPlainRanges) := rfl
  obtain ⟨hends, honly⟩ :=
    acyclic_uses_terminate_at_only_fixpoint ofDocument_reversedChain rfl hacyclic
  exact ⟨ofDocument_reversedChain, hacyclic, hends, hranges, honly _ _ _ rfl hranges⟩

end Body

end ValueRange

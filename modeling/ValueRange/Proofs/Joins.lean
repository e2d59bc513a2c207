import Mathlib.Order.Bounds.Basic
import Mathlib.Order.MinMax
import ValueRange.Proofs.TransferLaws

/-!
# Joins and phi nodes

`lub` decides by the shape of its left operand, and still is the join of the two operands end by
end. So it has the laws of a join with `empty` below and `full` above everything. A phi node joins
its incoming intervals one after the other. Its lower end is the least lower end among them and its
upper end the greatest upper end, and both belong to one of them. As a least upper bound, the result
depends on which intervals come in and not on their order or number.
-/

namespace ValueRange

namespace Interval

/-- An operation that joins intervals end by end, with the laws that make it a join. -/
structure IsJoin (join : Interval → Interval → Interval) : Prop where
  /-- The lower end is the smaller one, the upper end the greater one. -/
  ends : ∀ left right,
    join left right = ⟨min left.lower right.lower, max left.upper right.upper⟩
  comm : ∀ left right, join left right = join right left
  assoc : ∀ left middle right, join (join left middle) right = join left (join middle right)
  idem : ∀ interval, join interval interval = interval
  /-- The empty interval is the identity. -/
  empty_join : ∀ interval, join empty interval = interval
  join_empty : ∀ interval, join interval empty = interval
  /-- The full interval absorbs. -/
  full_join : ∀ interval, join full interval = full
  join_full : ∀ interval, join interval full = full
  /-- No smaller interval contains both operands end by end. -/
  isLUB : ∀ left right, IsLUB {left, right} (join left right)

theorem isJoin_lub : IsJoin lub where
  ends := lub_eq
  comm := sup_comm
  assoc := sup_assoc
  idem := sup_idem
  empty_join interval := sup_eq_right.mpr (empty_le interval)
  join_empty interval := sup_eq_left.mpr (empty_le interval)
  full_join interval := sup_eq_left.mpr (le_full interval)
  join_full interval := sup_eq_right.mpr (le_full interval)
  isLUB _ _ := isLUB_pair

/-! ## Joining a list -/

/-- The ends of a join of several intervals are ends of some of them. -/
theorem ends_foldl_lub_mem (intervals : List Interval) (start : Interval) :
    (∃ interval ∈ start :: intervals, interval.lower = (intervals.foldl lub start).lower) ∧
      ∃ interval ∈ start :: intervals, interval.upper = (intervals.foldl lub start).upper := by
  induction intervals generalizing start with
  | nil => exact ⟨⟨start, by simp, rfl⟩, ⟨start, by simp, rfl⟩⟩
  | cons first rest ih =>
      obtain ⟨⟨low, hlow, hlower⟩, ⟨high, hhigh, hupper⟩⟩ := ih (start.lub first)
      rw [List.foldl_cons, ← hlower, ← hupper]
      constructor
      · rcases List.mem_cons.mp hlow with rfl | hrest
        · rw [lub_eq]
          rcases min_choice start.lower first.lower with hmin | hmin
          · exact ⟨start, by simp, hmin.symm⟩
          · exact ⟨first, by simp, hmin.symm⟩
        · exact ⟨low, by simp [hrest], rfl⟩
      · rcases List.mem_cons.mp hhigh with rfl | hrest
        · rw [lub_eq]
          rcases max_choice start.upper first.upper with hmax | hmax
          · exact ⟨start, by simp, hmax.symm⟩
          · exact ⟨first, by simp, hmax.symm⟩
        · exact ⟨high, by simp [hrest], rfl⟩

variable {intervals intervals' : List Interval}

theorem exists_ends_of_foldl_lub (hintervals : intervals ≠ []) :
    (∃ interval ∈ intervals, interval.lower = (intervals.foldl lub empty).lower) ∧
      ∃ interval ∈ intervals, interval.upper = (intervals.foldl lub empty).upper := by
  obtain ⟨first, rest, rfl⟩ := List.exists_cons_of_ne_nil hintervals
  rw [List.foldl_cons, isJoin_lub.empty_join]
  exact ends_foldl_lub_mem rest first

theorem isLeast_lower_foldl_lub (hintervals : intervals ≠ []) :
    IsLeast {bound | ∃ interval ∈ intervals, interval.lower = bound}
      (intervals.foldl lub empty).lower := by
  refine ⟨(exists_ends_of_foldl_lub hintervals).1, ?_⟩
  rintro _ ⟨interval, hinterval, rfl⟩
  exact (le_foldl_lub hinterval).1

theorem isGreatest_upper_foldl_lub (hintervals : intervals ≠ []) :
    IsGreatest {bound | ∃ interval ∈ intervals, interval.upper = bound}
      (intervals.foldl lub empty).upper := by
  refine ⟨(exists_ends_of_foldl_lub hintervals).2, ?_⟩
  rintro _ ⟨interval, hinterval, rfl⟩
  exact (le_foldl_lub hinterval).2

theorem foldl_lub_mono (hsubset : intervals ⊆ intervals') :
    intervals.foldl lub empty ≤ intervals'.foldl lub empty := by
  apply foldl_lub_le_iff.mpr
  exact ⟨empty_le _, fun interval hinterval => le_foldl_lub (hsubset hinterval)⟩

/-- Lists with the same members have the same join. -/
theorem foldl_lub_congr (hsame : ∀ interval, interval ∈ intervals ↔ interval ∈ intervals') :
    intervals.foldl lub empty = intervals'.foldl lub empty := by
  apply le_antisymm
  · exact foldl_lub_mono fun interval => (hsame interval).mp
  · exact foldl_lub_mono fun interval => (hsame interval).mpr

end Interval

namespace Instruction

variable {store : Store Interval} {incoming incoming' : List (Value × UInt64)}

theorem mem_incomingIntervals {interval : Interval} :
    interval ∈ incomingIntervals store incoming ↔
      ∃ edge ∈ incoming, edge.1.interval store = interval :=
  List.mem_map

/-- The ends of a phi node are the least lower and the greatest upper end that come in. -/
theorem ends_of_phi (hincoming : incoming ≠ []) {value : Interval}
    (hvalue : (phi incoming).transfer store = .ok value) :
    IsLeast {bound | ∃ edge ∈ incoming, (edge.1.interval store).lower = bound} value.lower ∧
      IsGreatest {bound | ∃ edge ∈ incoming, (edge.1.interval store).upper = bound}
        value.upper := by
  cases hvalue
  have hintervals : incomingIntervals store incoming ≠ [] := by
    simpa [incomingIntervals] using hincoming
  have hlower := Interval.isLeast_lower_foldl_lub hintervals
  have hupper := Interval.isGreatest_upper_foldl_lub hintervals
  simp only [mem_incomingIntervals, exists_exists_and_eq_and] at hlower hupper
  exact ⟨hlower, hupper⟩

theorem transfer_phi_congr
    (hsame : ∀ interval, interval ∈ incomingIntervals store incoming ↔
      interval ∈ incomingIntervals store incoming') :
    (phi incoming).transfer store = (phi incoming').transfer store :=
  congrArg Except.ok (Interval.foldl_lub_congr hsame)

/-- The join of intervals is the pair of the smaller lower and the greater upper end, for operands of
any shape, with all laws of a join. The value of a phi node is the pair of the least lower and the
greatest upper end that come in. Under every store it is the same for all phi nodes with the same
incoming intervals, so it changes neither with their order nor if one of them comes in once more. -/
theorem lub_isJoin_and_phi_of_set :
    Interval.IsJoin Interval.lub ∧
      ∀ (store : Store Interval) (incoming : List (Value × UInt64)),
        (∃ value, (phi incoming).transfer store = .ok value ∧
          (incoming ≠ [] →
            IsLeast {bound | ∃ edge ∈ incoming, (edge.1.interval store).lower = bound}
                value.lower ∧
              IsGreatest {bound | ∃ edge ∈ incoming, (edge.1.interval store).upper = bound}
                value.upper)) ∧
        (∀ incoming', (∀ interval, interval ∈ incomingIntervals store incoming' ↔
            interval ∈ incomingIntervals store incoming) →
          (phi incoming').transfer store = (phi incoming).transfer store) ∧
        (∀ incoming', incoming'.Perm incoming →
          (phi incoming').transfer store = (phi incoming).transfer store) ∧
        ∀ edge ∈ incoming, ∀ label,
          (phi ((edge.1, label) :: incoming)).transfer store = (phi incoming).transfer store := by
  refine ⟨Interval.isJoin_lub, fun store incoming => ⟨?_, ?_, ?_, ?_⟩⟩
  · exact ⟨_, rfl, fun hincoming => ends_of_phi hincoming rfl⟩
  · intro incoming' hsame
    exact transfer_phi_congr hsame
  · intro incoming' hperm
    exact transfer_phi_congr fun interval => (hperm.map _).mem_iff
  · intro edge hedge label
    apply transfer_phi_congr
    intro interval
    simp only [mem_incomingIntervals, List.mem_cons, exists_eq_or_imp]
    exact or_iff_right_of_imp fun hinterval => ⟨edge, hedge, hinterval⟩

/-- A store in which the ends of an interval are in the wrong order. -/
def invertedStore : Store Interval := Store.empty.insert 0 ⟨.finite 5, .finite (-3)⟩

/-- Seven comes from one block, the result of the first instruction from another one. -/
def mixedEdges : List (Value × UInt64) :=
  [(.constant (.int 32 7) (.int 32), 1), (.register 0 (.int 32), 2)]

/-- The lower end comes from the inverted pair, the upper end from the constant. It does not matter
that the edges change places or that the result comes in from a third block as well. -/
theorem mixedEdges_join_inverted_pair :
    mixedEdges ≠ [] ∧
      (∃ value, (phi mixedEdges).transfer invertedStore = .ok value ∧
        value = ⟨.finite 5, .finite 7⟩ ∧
        IsLeast {bound | ∃ edge ∈ mixedEdges, (edge.1.interval invertedStore).lower = bound}
          value.lower) ∧
      (phi mixedEdges.reverse).transfer invertedStore = .ok ⟨.finite 5, .finite 7⟩ ∧
      (phi ((.register 0 (.int 32), 3) :: mixedEdges)).transfer invertedStore =
        .ok ⟨.finite 5, .finite 7⟩ := by
  have hvalue : (phi mixedEdges).transfer invertedStore = .ok ⟨.finite 5, .finite 7⟩ := rfl
  have hedge : ((.register 0 (.int 32), 2) : Value × UInt64) ∈ mixedEdges := by decide
  obtain ⟨⟨value, hphi, hends⟩, _, hperm, hcopy⟩ :=
    lub_isJoin_and_phi_of_set.2 invertedStore mixedEdges
  refine ⟨by decide, ⟨value, hphi, ?_, (hends (by decide)).1⟩, ?_, ?_⟩
  · rw [hphi] at hvalue
    exact Except.ok.inj hvalue
  · rw [hperm _ mixedEdges.reverse_perm, hvalue]
  · rw [hcopy _ hedge 3, hvalue]

end Instruction

end ValueRange

import Mathlib.Order.Lattice
import ValueRange.Interval.Basic
import ValueRange.Proofs.BoundOrder

/-!
# The order of intervals

An interval is below another one if its ends lie within those of the other. This compares the ends
and not the sets of integers, so it tells inverted pairs apart as well. In this order `lub` is the
join, whatever the shape of its operands, and `empty` and `full` are the extremes. An integer in an
interval lies in every interval above it.
-/

namespace ValueRange

namespace Interval

/-- Containment, end by end. -/
instance : LE Interval := ⟨fun left right => right.lower ≤ left.lower ∧ left.upper ≤ right.upper⟩

instance : DecidableLE Interval := fun _ _ => inferInstanceAs (Decidable (_ ∧ _))

instance : PartialOrder Interval where
  le_refl _ := ⟨le_refl _, le_refl _⟩
  le_trans _ _ _ hleft hright := ⟨hright.1.trans hleft.1, hleft.2.trans hright.2⟩
  le_antisymm _ _ hleft hright :=
    Interval.ext (le_antisymm hright.1 hleft.1) (le_antisymm hleft.2 hright.2)

@[simp]
theorem empty_le (interval : Interval) : empty ≤ interval :=
  ⟨interval.lower.le_posInf, interval.upper.negInf_le⟩

@[simp]
theorem le_full (interval : Interval) : interval ≤ full :=
  ⟨interval.lower.negInf_le, interval.upper.le_posInf⟩

/-- The case split of `lub` never departs from joining the ends one by one. -/
theorem lub_eq (left right : Interval) :
    left.lub right = ⟨min left.lower right.lower, max left.upper right.upper⟩ := by
  unfold lub
  split
  · rename_i hfull
    simp [hfull, full]
  split
  · rename_i hempty
    simp [hempty, empty]
  split
  · rename_i hends
    simp [hends, full]
  split
  · rename_i hlower
    simp [hlower]
  split
  · rename_i hupper
    simp [hupper]
  rfl

instance : SemilatticeSup Interval where
  sup := lub
  le_sup_left left right := by
    rw [lub_eq]
    exact ⟨min_le_left _ _, le_max_left _ _⟩
  le_sup_right left right := by
    rw [lub_eq]
    exact ⟨min_le_right _ _, le_max_right _ _⟩
  sup_le left right bound hleft hright := by
    rw [lub_eq]
    exact ⟨le_min hleft.1 hright.1, max_le hleft.2 hright.2⟩

theorem lub_le_iff {left right bound : Interval} :
    left.lub right ≤ bound ↔ left ≤ bound ∧ right ≤ bound := sup_le_iff

theorem lub_le_lub {left right left' right' : Interval} (hleft : left ≤ left')
    (hright : right ≤ right') : left.lub right ≤ left'.lub right' := sup_le_sup hleft hright

/-- The join of a list is the least interval above its start and its members. -/
theorem foldl_lub_le_iff {intervals : List Interval} {start bound : Interval} :
    intervals.foldl lub start ≤ bound ↔
      start ≤ bound ∧ ∀ interval ∈ intervals, interval ≤ bound := by
  induction intervals generalizing start with
  | nil => simp
  | cons first rest ih =>
      rw [List.foldl_cons, ih, lub_le_iff, List.forall_mem_cons, and_assoc]

theorem le_foldl_lub {intervals : List Interval} {start interval : Interval}
    (hinterval : interval ∈ intervals) : interval ≤ intervals.foldl lub start :=
  (foldl_lub_le_iff.mp (le_refl _)).2 interval hinterval

/-! ## Integers in an interval -/

/-- The integers between the ends. -/
instance : Membership Int Interval :=
  ⟨fun interval value => interval.lower.AtMost value ∧ interval.upper.AtLeast value⟩

instance (interval : Interval) (value : Int) : Decidable (value ∈ interval) :=
  inferInstanceAs (Decidable (_ ∧ _))

theorem mem_of_le {left right : Interval} {value : Int} (hle : left ≤ right)
    (hvalue : value ∈ left) : value ∈ right :=
  ⟨hvalue.1.mono hle.1, hvalue.2.mono hle.2⟩

theorem mem_full (value : Int) : value ∈ full := ⟨trivial, trivial⟩

theorem mem_constant (value : Int64) : value.toInt ∈ constant value := ⟨le_refl _, le_refl _⟩

theorem mem_unit {value : Int} (hvalue : value = 0 ∨ value = 1) : value ∈ unit := by
  rcases hvalue with rfl | rfl <;> decide

/-! ## Shape -/

/-- An interval that holds no value in the one agreed way, or some value. -/
def WellFormed (interval : Interval) : Prop :=
  interval = empty ∨
    interval.lower ≤ interval.upper ∧ interval.lower ≠ .posInf ∧ interval.upper ≠ .negInf

instance (interval : Interval) : Decidable interval.WellFormed :=
  inferInstanceAs (Decidable (_ ∨ _ ∧ _ ∧ _))

theorem wellFormed_empty : empty.WellFormed := Or.inl rfl

theorem wellFormed_full : full.WellFormed := by decide

theorem wellFormed_unit : unit.WellFormed := by decide

theorem wellFormed_constant (value : Int64) : (constant value).WellFormed :=
  Or.inr ⟨le_refl _, by simp [constant], by simp [constant]⟩

/-- Joining keeps the shape, because an empty operand is the identity. -/
theorem WellFormed.lub {left right : Interval} (hleft : left.WellFormed)
    (hright : right.WellFormed) : (left.lub right).WellFormed := by
  rw [lub_eq]
  rcases hleft with rfl | ⟨hends, hlower, hupper⟩
  · simpa [empty] using hright
  rcases hright with rfl | ⟨_, _, _⟩
  · exact Or.inr (by simpa [empty] using ⟨hends, hlower, hupper⟩)
  · refine Or.inr ⟨(min_le_left _ _).trans (hends.trans (le_max_left _ _)), ?_, ?_⟩
    · intro hmin
      exact hlower (Bound.posInf_le.mp (hmin.ge.trans (min_le_left _ _)))
    · intro hmax
      exact hupper (Bound.le_negInf.mp ((le_max_left _ _).trans hmax.le))

theorem wellFormed_foldl_lub {intervals : List Interval} {start : Interval}
    (hstart : start.WellFormed) (hintervals : ∀ interval ∈ intervals, interval.WellFormed) :
    (intervals.foldl Interval.lub start).WellFormed := by
  induction intervals generalizing start with
  | nil => exact hstart
  | cons first rest ih =>
      obtain ⟨hfirst, hrest⟩ := List.forall_mem_cons.mp hintervals
      exact ih (hstart.lub hfirst) hrest

/-! ## Widening -/

theorem le_widen (current previous : Interval) : current ≤ current.widen previous := by
  unfold widen
  split
  · exact le_refl _
  · constructor
    · dsimp only
      split
      · exact Bound.negInf_le _
      · exact le_refl _
    · dsimp only
      split
      · exact Bound.le_posInf _
      · exact le_refl _

theorem empty_widen (previous : Interval) : empty.widen previous = empty := by
  unfold widen
  split
  · rfl
  · -- No end of the empty interval lies further out than another one.
    have hlower : ¬ empty.lower < previous.lower := not_lt.mpr (Bound.le_posInf _)
    have hupper : ¬ previous.upper < empty.upper := not_lt.mpr (Bound.negInf_le _)
    rw [if_neg hlower, if_neg hupper]

theorem WellFormed.widen {current : Interval} (hcurrent : current.WellFormed)
    (previous : Interval) : (current.widen previous).WellFormed := by
  have hle := le_widen current previous
  rcases hcurrent with rfl | ⟨hends, hlower, hupper⟩
  · rw [empty_widen]
    exact wellFormed_empty
  · exact Or.inr ⟨hle.1.trans (hends.trans hle.2),
      fun heq => hlower (Bound.posInf_le.mp (heq ▸ hle.1)),
      fun heq => hupper (Bound.le_negInf.mp (heq ▸ hle.2))⟩

/-- An end that widening moves outward moves to infinity. -/
theorem widen_ends {current previous : Interval} (hprevious : previous ≠ empty)
    (hle : previous ≤ current.widen previous) :
    ((current.widen previous).lower = previous.lower ∨
        (current.widen previous).lower = .negInf ∧ previous.lower ≠ .negInf) ∧
      ((current.widen previous).upper = previous.upper ∨
        (current.widen previous).upper = .posInf ∧ previous.upper ≠ .posInf) := by
  obtain ⟨hlower, hupper⟩ := hle
  unfold widen at hlower hupper ⊢
  rw [if_neg hprevious] at hlower hupper ⊢
  dsimp only at hlower hupper ⊢
  constructor
  · split at hlower
    · rename_i hmoved
      rw [if_pos hmoved]
      exact Or.inr ⟨rfl, (lt_of_le_of_lt (Bound.negInf_le _) hmoved).ne'⟩
    · rename_i hmoved
      rw [if_neg hmoved]
      exact Or.inl (le_antisymm hlower (not_lt.mp hmoved))
  · split at hupper
    · rename_i hmoved
      rw [if_pos hmoved]
      exact Or.inr ⟨rfl, (lt_of_lt_of_le hmoved (Bound.le_posInf _)).ne⟩
    · rename_i hmoved
      rw [if_neg hmoved]
      exact Or.inl (le_antisymm (not_lt.mp hmoved) hupper)

end Interval

end ValueRange

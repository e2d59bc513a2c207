import Mathlib.Order.Lattice
import ValueRange.Interval.Bound

/-!
# The order of interval bounds

Every bound has a rank among the integers: a finite bound its value, an infinity the first integer
beyond all of them. The order of bounds is the order of their ranks, so it is linear, and a
statement about bounds becomes one about integers. The saturating operations are described by the
two ways in which `ofInt` can end.
-/

namespace ValueRange

namespace Bound

/-- Position of a bound among the integers, each infinity just beyond the finite bounds. -/
def rank : Bound → Int
  | negInf => Int64.minValue.toInt - 1
  | finite value => value.toInt
  | posInf => Int64.maxValue.toInt + 1

theorem le_rank (bound : Bound) : Int64.minValue.toInt - 1 ≤ bound.rank := by
  cases bound with
  | negInf => exact le_refl _
  | finite value =>
      have hlower := value.minValue_le_toInt
      simp only [rank]
      omega
  | posInf => decide

theorem rank_le (bound : Bound) : bound.rank ≤ Int64.maxValue.toInt + 1 := by
  cases bound with
  | negInf => decide
  | finite value =>
      have hupper := value.toInt_le
      simp only [rank]
      omega
  | posInf => exact le_refl _

theorem le_iff_rank {left right : Bound} : left ≤ right ↔ left.rank ≤ right.rank := by
  change left.le right = true ↔ _
  cases left with
  | negInf => exact iff_of_true rfl right.le_rank
  | finite left =>
      cases right with
      | negInf =>
          have hlower := left.minValue_le_toInt
          simp only [Bound.le, rank, Bool.false_eq_true, false_iff]
          omega
      | finite right => simp [Bound.le, rank, Int64.le_iff_toInt_le]
      | posInf => exact iff_of_true rfl (finite left).rank_le
  | posInf =>
      cases right with
      | negInf => decide
      | finite right =>
          have hupper := right.toInt_le
          simp only [Bound.le, rank, Bool.false_eq_true, false_iff]
          omega
      | posInf => exact iff_of_true rfl (le_refl _)

theorem lt_iff_rank {left right : Bound} : left < right ↔ left.rank < right.rank := by
  change ¬ right ≤ left ↔ _
  rw [le_iff_rank, not_le]

theorem rank_injective {left right : Bound} (hrank : left.rank = right.rank) : left = right := by
  have finite_ne (value : Int64) :
      (finite value).rank ≠ negInf.rank ∧ (finite value).rank ≠ posInf.rank := by
    have hlower := value.minValue_le_toInt
    have hupper := value.toInt_le
    simp only [rank]
    omega
  cases left with
  | negInf =>
      cases right with
      | negInf => rfl
      | finite right => exact absurd hrank.symm (finite_ne right).1
      | posInf => exact absurd hrank (by decide)
  | finite left =>
      cases right with
      | negInf => exact absurd hrank (finite_ne left).1
      | finite right => exact congrArg finite (Int64.toInt_inj.mp hrank)
      | posInf => exact absurd hrank (finite_ne left).2
  | posInf =>
      cases right with
      | negInf => exact absurd hrank (by decide)
      | finite right => exact absurd hrank.symm (finite_ne right).2
      | posInf => rfl

instance : LinearOrder Bound where
  le_refl _ := le_iff_rank.mpr (le_refl _)
  le_trans _ _ _ hleft hright :=
    le_iff_rank.mpr ((le_iff_rank.mp hleft).trans (le_iff_rank.mp hright))
  lt_iff_le_not_ge _ _ := by
    rw [lt_iff_rank, le_iff_rank, le_iff_rank]
    exact lt_iff_le_not_ge
  le_antisymm _ _ hleft hright :=
    rank_injective (le_antisymm (le_iff_rank.mp hleft) (le_iff_rank.mp hright))
  le_total _ _ := by
    rw [le_iff_rank, le_iff_rank]
    exact le_total _ _
  toDecidableLE := inferInstance
  min_def _ _ := rfl
  max_def _ _ := rfl
  compare_eq_compareOfLessAndEq _ _ := rfl

@[simp]
theorem negInf_le (bound : Bound) : negInf ≤ bound := rfl

@[simp]
theorem le_posInf (bound : Bound) : bound ≤ posInf := by
  rw [le_iff_rank]
  exact bound.rank_le

@[simp]
theorem le_negInf {bound : Bound} : bound ≤ negInf ↔ bound = negInf :=
  ⟨fun hbound => le_antisymm hbound bound.negInf_le, fun hbound => hbound ▸ le_refl _⟩

@[simp]
theorem posInf_le {bound : Bound} : posInf ≤ bound ↔ bound = posInf :=
  ⟨fun hbound => le_antisymm bound.le_posInf hbound, fun hbound => hbound ▸ le_refl _⟩

@[simp]
theorem finite_le_finite {left right : Int64} :
    finite left ≤ finite right ↔ left.toInt ≤ right.toInt :=
  le_iff_rank

/-! ## Integers and bounds -/

/-- The integer is not below the bound. -/
def AtMost : Bound → Int → Prop
  | negInf, _ => True
  | finite bound, value => bound.toInt ≤ value
  | posInf, _ => False

/-- The integer is not above the bound. -/
def AtLeast : Bound → Int → Prop
  | negInf, _ => False
  | finite bound, value => value ≤ bound.toInt
  | posInf, _ => True

instance (bound : Bound) (value : Int) : Decidable (bound.AtMost value) :=
  match bound with
  | negInf => isTrue trivial
  | finite bound => inferInstanceAs (Decidable (bound.toInt ≤ value))
  | posInf => isFalse id

instance (bound : Bound) (value : Int) : Decidable (bound.AtLeast value) :=
  match bound with
  | negInf => isFalse id
  | finite bound => inferInstanceAs (Decidable (value ≤ bound.toInt))
  | posInf => isTrue trivial

theorem AtMost.mono {left right : Bound} {value : Int} (hle : left ≤ right)
    (hright : right.AtMost value) : left.AtMost value := by
  cases left with
  | negInf => trivial
  | finite left =>
      cases right with
      | negInf => simp at hle
      | finite right => exact (finite_le_finite.mp hle).trans hright
      | posInf => exact hright.elim
  | posInf =>
      rw [posInf_le] at hle
      rwa [hle] at hright

theorem AtLeast.mono {left right : Bound} {value : Int} (hle : left ≤ right)
    (hleft : left.AtLeast value) : right.AtLeast value := by
  cases right with
  | negInf =>
      rw [le_negInf] at hle
      rwa [hle] at hleft
  | finite right =>
      cases left with
      | negInf => exact hleft.elim
      | finite left => exact le_trans hleft (finite_le_finite.mp hle)
      | posInf => simp at hle
  | posInf => trivial

/-! ## Saturating arithmetic -/

/-- A result within 64 bits is kept, and any other result gives way to the bound named for it. -/
theorem ofInt_cases (value : Int) (beyond : Bound) :
    (∃ kept : Int64, kept.toInt = value ∧ ofInt value beyond = finite kept) ∨
      ((value < Int64.minValue.toInt ∨ Int64.maxValue.toInt < value) ∧
        ofInt value beyond = beyond) := by
  unfold ofInt
  split
  · rename_i hvalue
    rw [Int64.toInt_minValue, Int64.toInt_maxValue] at hvalue
    exact Or.inl ⟨Int64.ofInt value, Int64.toInt_ofInt_of_le (by omega) (by omega), rfl⟩
  · rename_i hvalue
    exact Or.inr ⟨by omega, rfl⟩

theorem exists_ofInt_eq {value : Int} (hlower : Int64.minValue.toInt ≤ value)
    (hupper : value ≤ Int64.maxValue.toInt) (beyond : Bound) :
    ∃ kept : Int64, kept.toInt = value ∧ ofInt value beyond = finite kept := by
  obtain hkept | ⟨hout, _⟩ := ofInt_cases value beyond
  · exact hkept
  · omega

theorem ofInt_toInt (value : Int64) (beyond : Bound) : ofInt value.toInt beyond = finite value := by
  obtain ⟨kept, hkept, heq⟩ := exists_ofInt_eq value.minValue_le_toInt value.toInt_le beyond
  rw [heq, Int64.toInt_inj.mp hkept]

theorem AtMost.ofInt {value bound : Int} (hbound : bound ≤ value) :
    (Bound.ofInt bound negInf).AtMost value := by
  obtain ⟨kept, hkept, heq⟩ | ⟨_, heq⟩ := ofInt_cases bound negInf <;> rw [heq]
  · exact hkept.le.trans hbound
  · trivial

theorem AtLeast.ofInt {value bound : Int} (hbound : value ≤ bound) :
    (Bound.ofInt bound posInf).AtLeast value := by
  obtain ⟨kept, hkept, heq⟩ | ⟨_, heq⟩ := ofInt_cases bound posInf <;> rw [heq]
  · exact hbound.trans hkept.ge
  · trivial

theorem AtMost.addLower {left right : Bound} {x y : Int} (hx : left.AtMost x)
    (hy : right.AtMost y) : (left.addLower right).AtMost (x + y) := by
  cases left with
  | posInf => exact hx.elim
  | negInf =>
      cases right with
      | posInf => exact hy.elim
      | negInf => trivial
      | finite right => trivial
  | finite left =>
      cases right with
      | posInf => exact hy.elim
      | negInf => trivial
      | finite right => exact AtMost.ofInt (Int.add_le_add hx hy)

theorem AtLeast.addUpper {left right : Bound} {x y : Int} (hx : left.AtLeast x)
    (hy : right.AtLeast y) : (left.addUpper right).AtLeast (x + y) := by
  cases left with
  | negInf => exact hx.elim
  | posInf =>
      cases right with
      | negInf => exact hy.elim
      | posInf => trivial
      | finite right => trivial
  | finite left =>
      cases right with
      | negInf => exact hy.elim
      | posInf => trivial
      | finite right => exact AtLeast.ofInt (Int.add_le_add hx hy)

end Bound

end ValueRange

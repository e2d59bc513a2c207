import ValueRange.Proofs.Emptiness

/-!
# Sums and differences of intervals

An interval of the agreed shape stands for a set of integers without gaps. The sum of two of them
has every sum of two members, also where an end overflows. If no end overflows it has nothing else.
For a number in the sum, take any member of the left operand. The rest is a member of the right
operand, or it lies beyond one of its ends; then this end belongs to the right operand, and what is
left of the number still belongs to the left one. Differences follow, as negation is exact wherever
the ends have negations.
-/

namespace ValueRange

namespace Bound

/-- If both bounds are finite, their sum is a 64-bit integer. -/
def SumFits : Bound → Bound → Prop
  | finite left, finite right =>
    Int64.minValue.toInt ≤ left.toInt + right.toInt ∧
      left.toInt + right.toInt ≤ Int64.maxValue.toInt
  | _, _ => True

instance (left right : Bound) : Decidable (left.SumFits right) :=
  match left, right with
  | finite _, finite _ => inferInstanceAs (Decidable (_ ∧ _))
  | finite _, negInf | finite _, posInf | negInf, _ | posInf, _ => .isTrue trivial

instance (bound : Bound) : Decidable bound.NegFits :=
  match bound with
  | finite _ => inferInstanceAs (Decidable (_ ∧ _))
  | negInf | posInf => .isTrue trivial

/-! ## Integers on one side of a bound -/

theorem AtMost.of_le {bound : Bound} {low high : Int} (hlow : bound.AtMost low)
    (hle : low ≤ high) : bound.AtMost high := by
  cases bound with
  | negInf => trivial
  | finite value => exact le_trans hlow hle
  | posInf => exact hlow.elim

theorem AtLeast.of_le {bound : Bound} {low high : Int} (hhigh : bound.AtLeast high)
    (hle : low ≤ high) : bound.AtLeast low := by
  cases bound with
  | negInf => exact hhigh.elim
  | finite value => exact le_trans hle hhigh
  | posInf => trivial

theorem le_finite_iff {bound : Bound} {value : Int64} :
    bound ≤ finite value ↔ bound.AtMost value.toInt := by
  cases bound with
  | negInf => exact iff_of_true (negInf_le _) trivial
  | finite other => exact finite_le_finite
  | posInf => exact iff_of_false (fun hle => by cases posInf_le.mp hle) id

theorem finite_le_iff {bound : Bound} {value : Int64} :
    finite value ≤ bound ↔ bound.AtLeast value.toInt := by
  cases bound with
  | negInf => exact iff_of_false (fun hle => by cases le_negInf.mp hle) id
  | finite other => exact finite_le_finite
  | posInf => exact iff_of_true (le_posInf _) trivial

/-- An integer that a lower end excludes lies below it. -/
theorem exists_lt_of_not_atMost {bound : Bound} {value : Int} (hbound : bound ≠ posInf)
    (hvalue : ¬ bound.AtMost value) : ∃ low : Int64, bound = finite low ∧ value < low.toInt := by
  cases bound with
  | negInf => exact absurd trivial hvalue
  | finite low => exact ⟨low, rfl, not_le.mp hvalue⟩
  | posInf => exact absurd rfl hbound

/-- An integer that an upper end excludes lies above it. -/
theorem exists_lt_of_not_atLeast {bound : Bound} {value : Int} (hbound : bound ≠ negInf)
    (hvalue : ¬ bound.AtLeast value) :
    ∃ high : Int64, bound = finite high ∧ high.toInt < value := by
  cases bound with
  | negInf => exact absurd rfl hbound
  | finite high => exact ⟨high, rfl, not_le.mp hvalue⟩
  | posInf => exact absurd trivial hvalue

/-! ## Sums and negations that fit -/

/-- A number above the sum of two lower ends is still above the left one when the right one is taken
away. -/
theorem atMost_sub_of_addLower {left : Bound} {right : Int64} {value : Int}
    (hfits : left.SumFits (finite right)) (hvalue : (left.addLower (finite right)).AtMost value) :
    left.AtMost (value - right.toInt) := by
  cases left with
  | negInf => trivial
  | finite left =>
      obtain ⟨kept, hkept, heq⟩ := exists_ofInt_eq hfits.1 hfits.2 negInf
      rw [addLower, heq] at hvalue
      change kept.toInt ≤ value at hvalue
      change left.toInt ≤ value - right.toInt
      omega
  | posInf => exact hvalue

/-- A number below the sum of two upper ends is still below the left one when the right one is taken
away. -/
theorem atLeast_sub_of_addUpper {left : Bound} {right : Int64} {value : Int}
    (hfits : left.SumFits (finite right)) (hvalue : (left.addUpper (finite right)).AtLeast value) :
    left.AtLeast (value - right.toInt) := by
  cases left with
  | negInf => exact hvalue
  | finite left =>
      obtain ⟨kept, hkept, heq⟩ := exists_ofInt_eq hfits.1 hfits.2 posInf
      rw [addUpper, heq] at hvalue
      change value ≤ kept.toInt at hvalue
      change value - right.toInt ≤ left.toInt
      omega
  | posInf => trivial

theorem negLower_negUpper {bound : Bound} (hfits : bound.NegFits) :
    bound.negUpper.negLower = bound := by
  cases bound with
  | finite value =>
      obtain ⟨negated, hnegated, heq⟩ := exists_ofInt_eq hfits.1 hfits.2 posInf
      rw [negUpper, heq, negLower, hnegated, Int.neg_neg, ofInt_toInt]
  | _ => rfl

theorem negUpper_negLower {bound : Bound} (hfits : bound.NegFits) :
    bound.negLower.negUpper = bound := by
  cases bound with
  | finite value =>
      obtain ⟨negated, hnegated, heq⟩ := exists_ofInt_eq hfits.1 hfits.2 negInf
      rw [negLower, heq, negUpper, hnegated, Int.neg_neg, ofInt_toInt]
  | _ => rfl

end Bound

namespace Interval

variable {left right interval : Interval} {value : Int}

/-- No sum of two finite lower ends or of two finite upper ends leaves the 64-bit integers. -/
def SumFits (left right : Interval) : Prop :=
  left.lower.SumFits right.lower ∧ left.upper.SumFits right.upper

/-- No negation of a finite end leaves the 64-bit integers. -/
def NegFits (interval : Interval) : Prop := interval.lower.NegFits ∧ interval.upper.NegFits

instance (left right : Interval) : Decidable (left.SumFits right) :=
  inferInstanceAs (Decidable (_ ∧ _))

instance (interval : Interval) : Decidable interval.NegFits :=
  inferInstanceAs (Decidable (_ ∧ _))

/-! ## Members -/

theorem not_mem_empty (value : Int) : value ∉ empty := fun hvalue => hvalue.1

theorem WellFormed.mem_of_lower_eq (hinterval : interval.WellFormed) {low : Int64}
    (hlow : interval.lower = .finite low) : low.toInt ∈ interval := by
  rcases hinterval with rfl | ⟨hends, _, _⟩
  · cases hlow
  · rw [hlow] at hends
    exact ⟨Bound.le_finite_iff.mp hlow.le, Bound.finite_le_iff.mp hends⟩

theorem WellFormed.mem_of_upper_eq (hinterval : interval.WellFormed) {high : Int64}
    (hhigh : interval.upper = .finite high) : high.toInt ∈ interval := by
  rcases hinterval with rfl | ⟨hends, _, _⟩
  · cases hhigh
  · rw [hhigh] at hends
    exact ⟨Bound.le_finite_iff.mp hends, Bound.finite_le_iff.mp hhigh.ge⟩

/-- An interval of the agreed shape that is not the empty one has a member. -/
theorem WellFormed.exists_mem (hinterval : interval.WellFormed) (hempty : interval ≠ empty) :
    ∃ value, value ∈ interval := by
  obtain hnone | ⟨_, hlower, hupper⟩ := id hinterval
  · exact absurd hnone hempty
  by_cases hlow : interval.lower = .negInf
  · by_cases hhigh : interval.upper = .posInf
    · have hfull : interval = full := Interval.ext hlow hhigh
      exact ⟨0, hfull ▸ mem_full 0⟩
    · obtain ⟨high, hhigh⟩ := Bound.exists_eq_finite hupper hhigh
      exact ⟨_, hinterval.mem_of_upper_eq hhigh⟩
  · obtain ⟨low, hlow⟩ := Bound.exists_eq_finite hlow hlower
    exact ⟨_, hinterval.mem_of_lower_eq hlow⟩

/-! ## Exact results -/

/-- Every number in a sum without overflow is the sum of two members. -/
theorem SumFits.exists_add_eq (hfits : left.SumFits right) (hleft : left.WellFormed)
    (hright : right.WellFormed) (hvalue : value ∈ left.add right) :
    ∃ x ∈ left, ∃ y ∈ right, x + y = value := by
  have hleftEmpty : left ≠ empty := by
    rintro rfl
    exact not_mem_empty value hvalue
  have hrightEnds : right.lower ≠ .posInf ∧ right.upper ≠ .negInf := by
    rcases hright with rfl | ⟨_, hlower, hupper⟩
    · rw [add_empty] at hvalue
      exact absurd hvalue (not_mem_empty value)
    · exact ⟨hlower, hupper⟩
  obtain ⟨x, hx⟩ := hleft.exists_mem hleftEmpty
  obtain ⟨hsumLower, hsumUpper⟩ := hvalue
  by_cases hlower : right.lower.AtMost (value - x)
  · by_cases hupper : right.upper.AtLeast (value - x)
    · exact ⟨x, hx, value - x, ⟨hlower, hupper⟩, by omega⟩
    · -- The rest lies above the right operand, so its upper end leaves more than `x`.
      obtain ⟨high, hhigh, hlt⟩ := Bound.exists_lt_of_not_atLeast hrightEnds.2 hupper
      have hfitsUpper : left.upper.SumFits (.finite high) := hhigh ▸ hfits.2
      have hsumHigh : (left.upper.addUpper (.finite high)).AtLeast value := hhigh ▸ hsumUpper
      refine ⟨value - high.toInt, ⟨hx.1.of_le (by omega), ?_⟩, high.toInt, ?_, by omega⟩
      · exact Bound.atLeast_sub_of_addUpper hfitsUpper hsumHigh
      · exact hright.mem_of_upper_eq hhigh
  · -- The rest lies below the right operand, so its lower end leaves less than `x`.
    obtain ⟨low, hlow, hlt⟩ := Bound.exists_lt_of_not_atMost hrightEnds.1 hlower
    have hfitsLower : left.lower.SumFits (.finite low) := hlow ▸ hfits.1
    have hsumLow : (left.lower.addLower (.finite low)).AtMost value := hlow ▸ hsumLower
    refine ⟨value - low.toInt, ⟨?_, hx.2.of_le (by omega)⟩, low.toInt, ?_, by omega⟩
    · exact Bound.atMost_sub_of_addLower hfitsLower hsumLow
    · exact hright.mem_of_lower_eq hlow

theorem SumFits.mem_add_iff (hfits : left.SumFits right) (hleft : left.WellFormed)
    (hright : right.WellFormed) :
    value ∈ left.add right ↔ ∃ x ∈ left, ∃ y ∈ right, x + y = value := by
  constructor
  · exact hfits.exists_add_eq hleft hright
  · rintro ⟨x, hx, y, hy, rfl⟩
    exact add_mem_add hx hy

theorem NegFits.neg_neg (hfits : interval.NegFits) (hinterval : interval.WellFormed) :
    interval.neg.neg = interval := by
  rw [hinterval.neg.neg_eq, hinterval.neg_eq]
  exact Interval.ext (Bound.negLower_negUpper hfits.1) (Bound.negUpper_negLower hfits.2)

theorem NegFits.mem_neg_iff (hfits : interval.NegFits) (hinterval : interval.WellFormed) :
    value ∈ interval.neg ↔ -value ∈ interval := by
  constructor
  · intro hvalue
    have hneg := neg_mem_neg hvalue
    rwa [hfits.neg_neg hinterval] at hneg
  · intro hvalue
    have hneg := neg_mem_neg hvalue
    rwa [Int.neg_neg] at hneg

theorem NegFits.mem_sub_iff (hneg : right.NegFits) (hsum : left.SumFits right.neg)
    (hleft : left.WellFormed) (hright : right.WellFormed) :
    value ∈ left.sub right ↔ ∃ x ∈ left, ∃ y ∈ right, x - y = value := by
  rw [Interval.sub, hsum.mem_add_iff hleft hright.neg]
  constructor
  · rintro ⟨x, hx, y, hy, rfl⟩
    exact ⟨x, hx, -y, (hneg.mem_neg_iff hright).mp hy, by omega⟩
  · rintro ⟨x, hx, y, hy, rfl⟩
    exact ⟨x, hx, -y, neg_mem_neg hy, by omega⟩

/-- Sums and differences of intervals of the agreed shape have this shape, are empty exactly if an
operand is, and have every sum or difference of two members. If no end overflows they have nothing
else. Negating an interval twice gives it back unless one of its ends is the least integer. -/
theorem arithmetic_sound_and_exact (hleft : left.WellFormed) (hright : right.WellFormed) :
    ((left.add right).WellFormed ∧
        (left.add right = empty ↔ left = empty ∨ right = empty) ∧
        (∀ x ∈ left, ∀ y ∈ right, x + y ∈ left.add right) ∧
        (left.SumFits right →
          ∀ value, value ∈ left.add right ↔ ∃ x ∈ left, ∃ y ∈ right, x + y = value)) ∧
      ((left.sub right).WellFormed ∧
        (left.sub right = empty ↔ left = empty ∨ right = empty) ∧
        (∀ x ∈ left, ∀ y ∈ right, x - y ∈ left.sub right) ∧
        (right.NegFits → left.SumFits right.neg →
          ∀ value, value ∈ left.sub right ↔ ∃ x ∈ left, ∃ y ∈ right, x - y = value)) ∧
      (left.lower ≠ .finite Int64.minValue → left.upper ≠ .finite Int64.minValue →
        left.neg.neg = left) := by
  refine ⟨⟨hleft.add hright, hleft.add_eq_empty_iff hright, ?_, ?_⟩,
    ⟨hleft.sub hright, hleft.sub_eq_empty_iff hright, ?_, ?_⟩, ?_⟩
  · intro x hx y hy
    exact add_mem_add hx hy
  · intro hsum value
    exact hsum.mem_add_iff hleft hright
  · intro x hx y hy
    exact sub_mem_sub hx hy
  · intro hneg hsum value
    exact hneg.mem_sub_iff hsum hleft hright
  · intro hlower hupper
    have hneg : left.NegFits := ⟨Bound.negFits_iff.mpr hlower, Bound.negFits_iff.mpr hupper⟩
    exact hneg.neg_neg hleft

/-- The integers from `-1` on. -/
def fromMinusOne : Interval := ⟨.finite (-1), .posInf⟩

/-- The integers from three up to the greatest one of 64 bits. -/
def threeToGreatest : Interval := ⟨.finite 3, .finite Int64.maxValue⟩

/-- The lower end of the difference is the least integer of 64 bits, which just fits. -/
theorem fromMinusOne_sub_threeToGreatest :
    fromMinusOne.WellFormed ∧ threeToGreatest.WellFormed ∧ fromMinusOne.SumFits threeToGreatest ∧
      threeToGreatest.NegFits ∧ fromMinusOne.SumFits threeToGreatest.neg ∧
      fromMinusOne.sub threeToGreatest = ⟨.finite Int64.minValue, .posInf⟩ ∧
      (∀ value, value ∈ fromMinusOne.add threeToGreatest ↔
        ∃ x ∈ fromMinusOne, ∃ y ∈ threeToGreatest, x + y = value) ∧
      (∀ value, value ∈ fromMinusOne.sub threeToGreatest ↔
        ∃ x ∈ fromMinusOne, ∃ y ∈ threeToGreatest, x - y = value) ∧
      fromMinusOne.neg.neg = fromMinusOne := by
  have hleft : fromMinusOne.WellFormed := by decide
  have hright : threeToGreatest.WellFormed := by decide
  have hsum : fromMinusOne.SumFits threeToGreatest := by decide
  have hneg : threeToGreatest.NegFits := by decide
  have hdifference : fromMinusOne.SumFits threeToGreatest.neg := by decide
  obtain ⟨⟨_, _, _, hadd⟩, ⟨_, _, _, hsub⟩, htwice⟩ := arithmetic_sound_and_exact hleft hright
  exact ⟨hleft, hright, hsum, hneg, hdifference, by decide, hadd hsum, hsub hneg hdifference,
    htwice (by decide) (by decide)⟩

end Interval

end ValueRange

import ValueRange.Proofs.IntervalOrder

/-!
# Arithmetic on intervals

Addition and negation keep the shape of intervals and hold every exact integer result. They are
monotone except where an end overflows inward: a sum of lower ends above the 64-bit integers or of
upper ends below them, and the negation of an interval that ends at the least integer. There a
larger operand can stop the overflow, and the result shrinks.
-/

namespace ValueRange

namespace Bound

theorem ofInt_negInf_le_ofInt_posInf {lower upper : Int} (hle : lower ≤ upper) :
    ofInt lower negInf ≤ ofInt upper posInf := by
  obtain ⟨low, hlow, hlowEq⟩ | ⟨_, hlowEq⟩ := ofInt_cases lower negInf <;> rw [hlowEq]
  · obtain ⟨high, hhigh, hhighEq⟩ | ⟨_, hhighEq⟩ := ofInt_cases upper posInf <;> rw [hhighEq]
    · rw [finite_le_finite, hlow, hhigh]
      exact hle
    · exact le_posInf _
  · exact negInf_le _

theorem ofInt_negInf_mono {lower value : Int} (hle : lower ≤ value)
    (hvalue : value ≤ Int64.maxValue.toInt) :
    ofInt lower negInf ≤ ofInt value negInf := by
  obtain ⟨low, hlow, hlowEq⟩ | ⟨hlow, hlowEq⟩ := ofInt_cases lower negInf <;> rw [hlowEq]
  · obtain ⟨kept, hkept, hkeptEq⟩ | ⟨hout, _⟩ := ofInt_cases value negInf
    · rw [hkeptEq, finite_le_finite, hlow, hkept]
      exact hle
    · have hrange := low.minValue_le_toInt
      omega
  · exact negInf_le _

theorem ofInt_posInf_mono {value upper : Int} (hle : value ≤ upper)
    (hvalue : Int64.minValue.toInt ≤ value) :
    ofInt value posInf ≤ ofInt upper posInf := by
  obtain ⟨high, hhigh, hhighEq⟩ | ⟨hhigh, hhighEq⟩ := ofInt_cases upper posInf <;> rw [hhighEq]
  · obtain ⟨kept, hkept, hkeptEq⟩ | ⟨hout, _⟩ := ofInt_cases value posInf
    · rw [hkeptEq, finite_le_finite, hhigh, hkept]
      exact hle
    · have hrange := high.toInt_le
      omega
  · exact le_posInf _

/-! ## Sums of ends -/

/-- The sum of two finite bounds lies above the 64-bit integers. -/
def SumAbove : Bound → Bound → Prop
  | finite left, finite right => Int64.maxValue.toInt < left.toInt + right.toInt
  | _, _ => False

/-- The sum of two finite bounds lies below the 64-bit integers. -/
def SumBelow : Bound → Bound → Prop
  | finite left, finite right => left.toInt + right.toInt < Int64.minValue.toInt
  | _, _ => False

instance (left right : Bound) : Decidable (left.SumAbove right) :=
  match left, right with
  | finite _, finite _ => inferInstanceAs (Decidable (_ < _))
  | finite _, negInf | finite _, posInf | negInf, _ | posInf, _ => .isFalse id

instance (left right : Bound) : Decidable (left.SumBelow right) :=
  match left, right with
  | finite _, finite _ => inferInstanceAs (Decidable (_ < _))
  | finite _, negInf | finite _, posInf | negInf, _ | posInf, _ => .isFalse id

theorem addLower_ne_posInf {left right : Bound} (hleft : left ≠ posInf) (hright : right ≠ posInf) :
    left.addLower right ≠ posInf := by
  cases left with
  | posInf => exact absurd rfl hleft
  | negInf => cases right <;> simp_all [addLower]
  | finite left =>
      cases right with
      | posInf => exact absurd rfl hright
      | negInf => simp [addLower]
      | finite right =>
          simp only [addLower]
          obtain ⟨kept, _, heq⟩ | ⟨_, heq⟩ :=
            ofInt_cases (left.toInt + right.toInt) negInf <;> simp [heq]

theorem addUpper_ne_negInf {left right : Bound} (hleft : left ≠ negInf) (hright : right ≠ negInf) :
    left.addUpper right ≠ negInf := by
  cases left with
  | negInf => exact absurd rfl hleft
  | posInf => cases right <;> simp_all [addUpper]
  | finite left =>
      cases right with
      | negInf => exact absurd rfl hright
      | posInf => simp [addUpper]
      | finite right =>
          simp only [addUpper]
          obtain ⟨kept, _, heq⟩ | ⟨_, heq⟩ :=
            ofInt_cases (left.toInt + right.toInt) posInf <;> simp [heq]

theorem negInf_addLower {bound : Bound} (hbound : bound ≠ posInf) :
    negInf.addLower bound = negInf := by
  cases bound <;> simp_all [addLower]

theorem addLower_negInf {bound : Bound} (hbound : bound ≠ posInf) :
    bound.addLower negInf = negInf := by
  cases bound <;> simp_all [addLower]

theorem posInf_addUpper {bound : Bound} (hbound : bound ≠ negInf) :
    posInf.addUpper bound = posInf := by
  cases bound <;> simp_all [addUpper]

theorem addUpper_posInf {bound : Bound} (hbound : bound ≠ negInf) :
    bound.addUpper posInf = posInf := by
  cases bound <;> simp_all [addUpper]

@[simp]
theorem posInf_addLower (bound : Bound) : posInf.addLower bound = posInf := rfl

@[simp]
theorem addLower_posInf (bound : Bound) : bound.addLower posInf = posInf := by
  cases bound <;> rfl

@[simp]
theorem negInf_addUpper (bound : Bound) : negInf.addUpper bound = negInf := rfl

@[simp]
theorem addUpper_negInf (bound : Bound) : bound.addUpper negInf = negInf := by
  cases bound <;> rfl

theorem exists_eq_finite {bound : Bound} (hlower : bound ≠ negInf) (hupper : bound ≠ posInf) :
    ∃ value, bound = finite value := by
  cases bound with
  | negInf => exact absurd rfl hlower
  | finite value => exact ⟨value, rfl⟩
  | posInf => exact absurd rfl hupper

theorem ne_posInf_of_le {low high : Bound} (hle : low ≤ high) (hhigh : high ≠ posInf) :
    low ≠ posInf := fun hlow => hhigh (posInf_le.mp (hlow ▸ hle))

theorem ne_negInf_of_le {low high : Bound} (hle : low ≤ high) (hlow : low ≠ negInf) :
    high ≠ negInf := fun hhigh => hlow (le_negInf.mp (hhigh ▸ hle))

theorem addLower_le_addUpper {left right left' right' : Bound} (hleft : left ≤ left')
    (hright : right ≤ right') (hlower : left ≠ posInf ∧ right ≠ posInf)
    (hupper : left' ≠ negInf ∧ right' ≠ negInf) :
    left.addLower right ≤ left'.addUpper right' := by
  by_cases hleftInf : left = negInf
  · rw [hleftInf, negInf_addLower hlower.2]
    exact negInf_le _
  by_cases hrightInf : right = negInf
  · rw [hrightInf, addLower_negInf hlower.1]
    exact negInf_le _
  by_cases hleftInf' : left' = posInf
  · rw [hleftInf', posInf_addUpper hupper.2]
    exact le_posInf _
  by_cases hrightInf' : right' = posInf
  · rw [hrightInf', addUpper_posInf hupper.1]
    exact le_posInf _
  -- Now all four ends are finite.
  obtain ⟨left, rfl⟩ := exists_eq_finite hleftInf hlower.1
  obtain ⟨right, rfl⟩ := exists_eq_finite hrightInf hlower.2
  obtain ⟨left', rfl⟩ := exists_eq_finite hupper.1 hleftInf'
  obtain ⟨right', rfl⟩ := exists_eq_finite hupper.2 hrightInf'
  rw [finite_le_finite] at hleft hright
  exact ofInt_negInf_le_ofInt_posInf (Int.add_le_add hleft hright)

theorem addLower_mono {left right left' right' : Bound} (hleft : left' ≤ left)
    (hright : right' ≤ right) (hsum : ¬ left.SumAbove right) :
    left'.addLower right' ≤ left.addLower right := by
  by_cases hleftInf : left = posInf
  · rw [hleftInf, posInf_addLower]
    exact le_posInf _
  by_cases hrightInf : right = posInf
  · rw [hrightInf, addLower_posInf]
    exact le_posInf _
  by_cases hleftInf' : left' = negInf
  · rw [hleftInf', negInf_addLower (ne_posInf_of_le hright hrightInf)]
    exact negInf_le _
  by_cases hrightInf' : right' = negInf
  · rw [hrightInf', addLower_negInf (ne_posInf_of_le hleft hleftInf)]
    exact negInf_le _
  obtain ⟨left', rfl⟩ := exists_eq_finite hleftInf' (ne_posInf_of_le hleft hleftInf)
  obtain ⟨right', rfl⟩ := exists_eq_finite hrightInf' (ne_posInf_of_le hright hrightInf)
  obtain ⟨left, rfl⟩ := exists_eq_finite (ne_negInf_of_le hleft hleftInf') hleftInf
  obtain ⟨right, rfl⟩ := exists_eq_finite (ne_negInf_of_le hright hrightInf') hrightInf
  rw [finite_le_finite] at hleft hright
  exact ofInt_negInf_mono (Int.add_le_add hleft hright) (Int.not_lt.mp hsum)

theorem addUpper_mono {left right left' right' : Bound} (hleft : left ≤ left')
    (hright : right ≤ right') (hsum : ¬ left.SumBelow right) :
    left.addUpper right ≤ left'.addUpper right' := by
  by_cases hleftInf : left = negInf
  · rw [hleftInf, negInf_addUpper]
    exact negInf_le _
  by_cases hrightInf : right = negInf
  · rw [hrightInf, addUpper_negInf]
    exact negInf_le _
  by_cases hleftInf' : left' = posInf
  · rw [hleftInf', posInf_addUpper (ne_negInf_of_le hright hrightInf)]
    exact le_posInf _
  by_cases hrightInf' : right' = posInf
  · rw [hrightInf', addUpper_posInf (ne_negInf_of_le hleft hleftInf)]
    exact le_posInf _
  obtain ⟨left, rfl⟩ := exists_eq_finite hleftInf (ne_posInf_of_le hleft hleftInf')
  obtain ⟨right, rfl⟩ := exists_eq_finite hrightInf (ne_posInf_of_le hright hrightInf')
  obtain ⟨left', rfl⟩ := exists_eq_finite (ne_negInf_of_le hleft hleftInf) hleftInf'
  obtain ⟨right', rfl⟩ := exists_eq_finite (ne_negInf_of_le hright hrightInf) hrightInf'
  rw [finite_le_finite] at hleft hright
  exact ofInt_posInf_mono (Int.add_le_add hleft hright) (Int.not_lt.mp hsum)

/-! ## Negated ends -/

/-- The lower end of a negated interval, from the upper end of the interval. -/
def negLower : Bound → Bound
  | negInf => posInf
  | finite upper => ofInt (-upper.toInt) negInf
  | posInf => negInf

/-- The upper end of a negated interval, from the lower end of the interval. -/
def negUpper : Bound → Bound
  | negInf => posInf
  | finite lower => ofInt (-lower.toInt) posInf
  | posInf => negInf

/-- If the bound is finite, its negation is a 64-bit integer. -/
def NegFits : Bound → Prop
  | finite value => Int64.minValue.toInt ≤ -value.toInt ∧ -value.toInt ≤ Int64.maxValue.toInt
  | _ => True

/-- The least integer is the only one without a negation. -/
theorem negFits_iff {bound : Bound} : bound.NegFits ↔ bound ≠ finite Int64.minValue := by
  cases bound with
  | finite value =>
      have hlower := value.minValue_le_toInt
      have hupper := value.toInt_le
      rw [Ne, finite.injEq, ← Int64.toInt_inj, NegFits]
      rw [Int64.toInt_minValue] at hlower ⊢
      rw [Int64.toInt_maxValue] at hupper ⊢
      omega
  | _ => simp [NegFits]

theorem negLower_ne_posInf {bound : Bound} (hbound : bound ≠ negInf) :
    bound.negLower ≠ posInf := by
  cases bound with
  | negInf => exact absurd rfl hbound
  | finite upper =>
      simp only [negLower]
      obtain ⟨kept, _, heq⟩ | ⟨_, heq⟩ := ofInt_cases (-upper.toInt) negInf <;> simp [heq]
  | posInf => simp [negLower]

theorem negUpper_ne_negInf {bound : Bound} (hbound : bound ≠ posInf) :
    bound.negUpper ≠ negInf := by
  cases bound with
  | negInf => simp [negUpper]
  | finite lower =>
      simp only [negUpper]
      obtain ⟨kept, _, heq⟩ | ⟨_, heq⟩ := ofInt_cases (-lower.toInt) posInf <;> simp [heq]
  | posInf => exact absurd rfl hbound

theorem negLower_le_negUpper {lower upper : Bound} (hle : lower ≤ upper) (hlower : lower ≠ posInf)
    (hupper : upper ≠ negInf) : upper.negLower ≤ lower.negUpper := by
  cases upper with
  | negInf => exact absurd rfl hupper
  | posInf => exact negInf_le _
  | finite upper =>
      cases lower with
      | posInf => exact absurd rfl hlower
      | negInf => exact le_posInf _
      | finite lower =>
          rw [finite_le_finite] at hle
          exact ofInt_negInf_le_ofInt_posInf (by omega)

theorem AtMost.negLower {upper : Bound} {value : Int} (hvalue : upper.AtLeast value) :
    upper.negLower.AtMost (-value) := by
  cases upper with
  | negInf => exact hvalue.elim
  | finite upper => exact AtMost.ofInt (Int.neg_le_neg hvalue)
  | posInf => trivial

theorem AtLeast.negUpper {lower : Bound} {value : Int} (hvalue : lower.AtMost value) :
    lower.negUpper.AtLeast (-value) := by
  cases lower with
  | negInf => trivial
  | finite lower => exact AtLeast.ofInt (Int.neg_le_neg hvalue)
  | posInf => exact hvalue.elim

theorem negLower_anti {upper upper' : Bound} (hle : upper ≤ upper')
    (hleast : upper ≠ finite Int64.minValue) : upper'.negLower ≤ upper.negLower := by
  cases upper' with
  | negInf =>
      rw [le_negInf.mp hle]
  | posInf => exact negInf_le _
  | finite upper' =>
      cases upper with
      | negInf => exact le_posInf _
      | posInf => simp at hle
      | finite upper =>
          rw [finite_le_finite] at hle
          have hne : upper.toInt ≠ Int64.minValue.toInt := fun heq =>
            hleast (congrArg finite (Int64.toInt_inj.mp heq))
          have hlower := upper.minValue_le_toInt
          refine ofInt_negInf_mono (by omega) ?_
          rw [Int64.toInt_maxValue]
          rw [Int64.toInt_minValue] at hne hlower
          omega

theorem negUpper_anti {lower lower' : Bound} (hle : lower' ≤ lower) :
    lower.negUpper ≤ lower'.negUpper := by
  cases lower' with
  | posInf => rw [posInf_le.mp hle]
  | negInf => exact le_posInf _
  | finite lower' =>
      cases lower with
      | posInf => exact negInf_le _
      | negInf => simp at hle
      | finite lower =>
          rw [finite_le_finite] at hle
          have hupper := lower.toInt_lt
          refine ofInt_posInf_mono (by omega) ?_
          rw [Int64.toInt_minValue]
          omega

end Bound

namespace Interval

/-- On intervals of the agreed shape, negation negates the ends one by one. -/
theorem WellFormed.neg_eq {interval : Interval} (hinterval : interval.WellFormed) :
    interval.neg = ⟨interval.upper.negLower, interval.lower.negUpper⟩ := by
  obtain ⟨lower, upper⟩ := interval
  rcases hinterval with hempty | ⟨hends, hlower, hupper⟩
  · cases hempty
    rfl
  · have hneg := Bound.negLower_le_negUpper hends hlower hupper
    cases lower with
    | posInf => exact absurd rfl hlower
    | negInf =>
        cases upper with
        | negInf => exact absurd rfl hupper
        | finite upper => rfl
        | posInf => rfl
    | finite lower =>
        cases upper with
        | negInf => exact absurd rfl hupper
        | posInf => rfl
        | finite upper => exact Interval.ext (min_eq_left hneg) (max_eq_right hneg)

theorem wellFormed_of_mem {interval : Interval} {value : Int} (hvalue : value ∈ interval) :
    interval.WellFormed := by
  obtain ⟨lower, upper⟩ := interval
  obtain ⟨hlower, hupper⟩ := hvalue
  cases lower with
  | posInf => exact hlower.elim
  | negInf =>
      cases upper with
      | negInf => exact hupper.elim
      | finite upper => exact Or.inr ⟨Bound.negInf_le _, by simp, by simp⟩
      | posInf => exact wellFormed_full
  | finite lower =>
      cases upper with
      | negInf => exact hupper.elim
      | finite upper =>
          exact Or.inr ⟨Bound.finite_le_finite.mpr (le_trans hlower hupper), by simp, by simp⟩
      | posInf => exact Or.inr ⟨Bound.le_posInf _, by simp, by simp⟩

/-! ## Shape -/

theorem WellFormed.add {left right : Interval} (hleft : left.WellFormed)
    (hright : right.WellFormed) : (left.add right).WellFormed := by
  rcases hleft with rfl | ⟨hleftEnds, hleftLower, hleftUpper⟩
  · exact Or.inl rfl
  rcases hright with rfl | ⟨hrightEnds, hrightLower, hrightUpper⟩
  · exact Or.inl (Interval.ext (Bound.addLower_posInf _) (Bound.addUpper_negInf _))
  · exact Or.inr
      ⟨Bound.addLower_le_addUpper hleftEnds hrightEnds ⟨hleftLower, hrightLower⟩
          ⟨hleftUpper, hrightUpper⟩,
        Bound.addLower_ne_posInf hleftLower hrightLower,
        Bound.addUpper_ne_negInf hleftUpper hrightUpper⟩

theorem WellFormed.neg {interval : Interval} (hinterval : interval.WellFormed) :
    interval.neg.WellFormed := by
  rw [hinterval.neg_eq]
  rcases hinterval with rfl | ⟨hends, hlower, hupper⟩
  · exact Or.inl rfl
  · exact Or.inr ⟨Bound.negLower_le_negUpper hends hlower hupper,
      Bound.negLower_ne_posInf hupper, Bound.negUpper_ne_negInf hlower⟩

theorem WellFormed.sub {left right : Interval} (hleft : left.WellFormed)
    (hright : right.WellFormed) : (left.sub right).WellFormed :=
  hleft.add hright.neg

/-! ## Exact integer results -/

theorem add_mem_add {left right : Interval} {x y : Int} (hx : x ∈ left) (hy : y ∈ right) :
    x + y ∈ left.add right :=
  ⟨hx.1.addLower hy.1, hx.2.addUpper hy.2⟩

theorem neg_mem_neg {interval : Interval} {value : Int} (hvalue : value ∈ interval) :
    -value ∈ interval.neg := by
  rw [(wellFormed_of_mem hvalue).neg_eq]
  exact ⟨Bound.AtMost.negLower hvalue.2, Bound.AtLeast.negUpper hvalue.1⟩

theorem sub_mem_sub {left right : Interval} {x y : Int} (hx : x ∈ left) (hy : y ∈ right) :
    x - y ∈ left.sub right := by
  rw [Int.sub_eq_add_neg]
  exact add_mem_add hx (neg_mem_neg hy)

/-! ## Monotonicity -/

/-- An end of the sum overflows inward. -/
def AddOverflowsInward (left right : Interval) : Prop :=
  left.lower.SumAbove right.lower ∨ left.upper.SumBelow right.upper

/-- The lower end of the negation overflows inward. -/
def NegOverflowsInward (interval : Interval) : Prop :=
  interval.upper = .finite Int64.minValue

/-- The negation or the sum that makes up a difference overflows inward. -/
def SubOverflowsInward (left right : Interval) : Prop :=
  right.NegOverflowsInward ∨ left.AddOverflowsInward right.neg

instance (left right : Interval) : Decidable (left.AddOverflowsInward right) :=
  inferInstanceAs (Decidable (_ ∨ _))

instance (left right : Interval) : Decidable (left.SubOverflowsInward right) :=
  inferInstanceAs (Decidable (_ = _ ∨ _))

theorem add_le_add_of_not_inward {left right left' right' : Interval} (hleft : left ≤ left')
    (hright : right ≤ right') (hinward : ¬ left.AddOverflowsInward right) :
    left.add right ≤ left'.add right' := by
  obtain ⟨hlower, hupper⟩ := not_or.mp hinward
  exact ⟨Bound.addLower_mono hleft.1 hright.1 hlower, Bound.addUpper_mono hleft.2 hright.2 hupper⟩

theorem neg_le_neg_of_not_inward {interval interval' : Interval} (hinterval : interval.WellFormed)
    (hinterval' : interval'.WellFormed) (hle : interval ≤ interval')
    (hinward : ¬ interval.NegOverflowsInward) : interval.neg ≤ interval'.neg := by
  rw [hinterval.neg_eq, hinterval'.neg_eq]
  exact ⟨Bound.negLower_anti hle.2 hinward, Bound.negUpper_anti hle.1⟩

theorem sub_le_sub_of_not_inward {left right left' right' : Interval} (hright : right.WellFormed)
    (hright' : right'.WellFormed) (hleftLe : left ≤ left') (hrightLe : right ≤ right')
    (hinward : ¬ left.SubOverflowsInward right) : left.sub right ≤ left'.sub right' := by
  obtain ⟨hneg, hadd⟩ := not_or.mp hinward
  exact add_le_add_of_not_inward hleftLe (neg_le_neg_of_not_inward hright hright' hrightLe hneg) hadd

end Interval

end ValueRange

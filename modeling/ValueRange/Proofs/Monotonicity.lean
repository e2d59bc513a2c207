import ValueRange.Proofs.Emptiness
import ValueRange.Proofs.Failure
import ValueRange.Proofs.Stability

/-!
# How far the transfer function is monotone

An overflow gives up an end, whichever way it points: a lower end that leaves the 64-bit integers at
the top becomes `-inf` all the same. So larger operands, whose sum no longer overflows, can have a
smaller result. This happens to sums and differences only, and the two ends can be told apart: under
the larger store the result contains the former one exactly if every end that was given up on the far
side is infinite there as well.
-/

namespace ValueRange

namespace Bound

/-! ## Ends that overflow inward -/

/-- A lower end less an upper end overflows inward: the difference lies above the 64-bit integers, or
the upper end has no negation among them. -/
def DifferenceAbove : Bound → Bound → Prop
  | finite lower, finite upper =>
    upper = Int64.minValue ∨ Int64.maxValue.toInt < lower.toInt - upper.toInt
  | _, _ => False

/-- An upper end less a lower end lies below the 64-bit integers. -/
def DifferenceBelow : Bound → Bound → Prop
  | finite upper, finite lower => upper.toInt - lower.toInt < Int64.minValue.toInt
  | _, _ => False

instance (lower upper : Bound) : Decidable (lower.DifferenceAbove upper) :=
  match lower, upper with
  | finite _, finite _ => inferInstanceAs (Decidable (_ ∨ _))
  | finite _, negInf | finite _, posInf | negInf, _ | posInf, _ => .isFalse id

instance (upper lower : Bound) : Decidable (upper.DifferenceBelow lower) :=
  match upper, lower with
  | finite _, finite _ => inferInstanceAs (Decidable (_ < _))
  | finite _, negInf | finite _, posInf | negInf, _ | posInf, _ => .isFalse id

theorem addLower_of_sumAbove {left right : Bound} (hsum : left.SumAbove right) :
    left.addLower right = negInf := by
  cases left with
  | finite left =>
      cases right with
      | finite right => exact if_neg fun hrange => Int.not_lt.mpr hrange.2 hsum
      | _ => exact hsum.elim
  | _ => exact hsum.elim

theorem addUpper_of_sumBelow {left right : Bound} (hsum : left.SumBelow right) :
    left.addUpper right = posInf := by
  cases left with
  | finite left =>
      cases right with
      | finite right => exact if_neg fun hrange => Int.not_lt.mpr hrange.1 hsum
      | _ => exact hsum.elim
  | _ => exact hsum.elim

@[simp]
theorem negLower_minValue : (finite Int64.minValue).negLower = negInf := by decide

/-- Every 64-bit integer but the least one has a negation. -/
theorem negLower_of_ne_minValue {upper : Int64} (hupper : upper ≠ Int64.minValue) :
    ∃ negated : Int64, negated.toInt = -upper.toInt ∧
      (finite upper).negLower = finite negated := by
  have hfits : (finite upper).NegFits :=
    negFits_iff.mpr fun heq => hupper (finite.inj heq)
  exact exists_ofInt_eq hfits.1 hfits.2 negInf

theorem sumAbove_negLower_iff {lower : Bound} {upper : Int64} (hupper : upper ≠ Int64.minValue) :
    lower.SumAbove (finite upper).negLower ↔ lower.DifferenceAbove (finite upper) := by
  obtain ⟨negated, hnegated, heq⟩ := negLower_of_ne_minValue hupper
  rw [heq]
  cases lower with
  | finite lower =>
      simp only [SumAbove, DifferenceAbove, hnegated, hupper, false_or, Int.sub_eq_add_neg]
  | _ => exact Iff.rfl

theorem addLower_negLower_of_differenceAbove {lower upper : Bound}
    (hdifference : lower.DifferenceAbove upper) : lower.addLower upper.negLower = negInf := by
  cases lower with
  | finite lower =>
      cases upper with
      | finite upper =>
          by_cases hupper : upper = Int64.minValue
          · rw [hupper, negLower_minValue]
            rfl
          · exact addLower_of_sumAbove ((sumAbove_negLower_iff hupper).mpr hdifference)
      | _ => exact hdifference.elim
  | _ => exact hdifference.elim

theorem addLower_negLower_mono {lower upper lower' upper' : Bound} (hlower : lower' ≤ lower)
    (hupper : upper ≤ upper') (hdifference : ¬ lower.DifferenceAbove upper) :
    lower'.addLower upper'.negLower ≤ lower.addLower upper.negLower := by
  by_cases hleast : upper = finite Int64.minValue
  · -- The negation overflows, which does no harm only beside an infinite end.
    subst hleast
    cases lower with
    | posInf => exact le_posInf _
    | negInf =>
        have hupper' : upper' ≠ negInf := ne_negInf_of_le hupper (by simp)
        rw [le_negInf.mp hlower, negInf_addLower (negLower_ne_posInf hupper')]
        exact negInf_le _
    | finite lower => exact absurd (Or.inl rfl) hdifference
  · refine addLower_mono hlower (negLower_anti hupper hleast) fun hsum => hdifference ?_
    cases upper with
    | finite upper =>
        exact (sumAbove_negLower_iff fun heq => hleast (congrArg finite heq)).mp hsum
    | _ => cases lower <;> exact hsum.elim

theorem sumBelow_negUpper_iff {upper lower : Bound} :
    upper.SumBelow lower.negUpper ↔ upper.DifferenceBelow lower := by
  cases upper with
  | finite upper =>
      cases lower with
      | finite lower =>
          obtain ⟨negated, hnegated, heq⟩ | ⟨hout, heq⟩ := ofInt_cases (-lower.toInt) posInf
          · simp only [negUpper, heq, SumBelow, DifferenceBelow, hnegated, Int.sub_eq_add_neg]
          · have hlower := lower.toInt_le
            have hleast := upper.minValue_le_toInt
            rw [Int64.toInt_minValue] at hout hleast
            rw [Int64.toInt_maxValue] at hout hlower
            simp only [negUpper, heq, SumBelow, DifferenceBelow, false_iff, Int64.toInt_minValue]
            omega
      | _ => exact Iff.rfl
  | _ => exact Iff.rfl

/-! ## Both ends at once -/

/-- Of a lower end that is given up under a condition and else moves outward. -/
theorem lower_le_iff {low high : Bound} {overflows : Prop} (hgiven : overflows → low = negInf)
    (hkept : ¬ overflows → high ≤ low) : high ≤ low ↔ (overflows → high = negInf) := by
  by_cases hoverflows : overflows
  · rw [hgiven hoverflows, le_negInf, forall_prop_of_true hoverflows]
  · exact iff_of_true (hkept hoverflows) fun hoverflow => absurd hoverflow hoverflows

/-- Of an upper end that is given up under a condition and else moves outward. -/
theorem upper_le_iff {low high : Bound} {overflows : Prop} (hgiven : overflows → low = posInf)
    (hkept : ¬ overflows → low ≤ high) : low ≤ high ↔ (overflows → high = posInf) := by
  by_cases hoverflows : overflows
  · rw [hgiven hoverflows, posInf_le, forall_prop_of_true hoverflows]
  · exact iff_of_true (hkept hoverflows) fun hoverflow => absurd hoverflow hoverflows

end Bound

namespace Interval

variable {left right left' right' : Interval}

theorem add_le_add_iff (hleft : left ≤ left') (hright : right ≤ right') :
    left.add right ≤ left'.add right' ↔
      (left.lower.SumAbove right.lower → (left'.add right').lower = .negInf) ∧
        (left.upper.SumBelow right.upper → (left'.add right').upper = .posInf) :=
  and_congr
    (Bound.lower_le_iff Bound.addLower_of_sumAbove (Bound.addLower_mono hleft.1 hright.1))
    (Bound.upper_le_iff Bound.addUpper_of_sumBelow (Bound.addUpper_mono hleft.2 hright.2))

theorem sub_le_sub_iff (hwell : right.WellFormed) (hwell' : right'.WellFormed)
    (hleft : left ≤ left') (hright : right ≤ right') :
    left.sub right ≤ left'.sub right' ↔
      (left.lower.DifferenceAbove right.upper → (left'.sub right').lower = .negInf) ∧
        (left.upper.DifferenceBelow right.lower → (left'.sub right').upper = .posInf) := by
  rw [sub, sub, hwell.neg_eq, hwell'.neg_eq]
  refine and_congr ?_ ?_
  · exact Bound.lower_le_iff Bound.addLower_negLower_of_differenceAbove
      (Bound.addLower_negLower_mono hleft.1 hright.2)
  · rw [← Bound.sumBelow_negUpper_iff]
    exact Bound.upper_le_iff Bound.addUpper_of_sumBelow
      (Bound.addUpper_mono hleft.2 (Bound.negUpper_anti hright.1))

end Interval

namespace Store

theorem wellFormed_empty : (∅ : Store Interval).WellFormed := by
  intro id interval hinterval
  cases hinterval

theorem WellFormed.insert {store : Store Interval} (hstore : store.WellFormed) {interval : Interval}
    (hinterval : interval.WellFormed) (id : Nat) : (store.insert id interval).WellFormed := by
  intro other found hfound
  rw [get?_insert] at hfound
  split at hfound
  · cases hfound
    exact hinterval
  · exact hstore other found hfound

theorem Within.insert_insert {left right : Store Interval} (hwithin : left.Within right)
    {low high : Interval} (hle : low ≤ high) (id : Nat) :
    (left.insert id low).Within (right.insert id high) where
  isSome_eq other := by
    rw [get?_insert, get?_insert]
    split
    · rfl
    · exact hwithin.isSome_eq other
  le {other found found'} hlow hhigh := by
    rw [get?_insert] at hlow hhigh
    split at hlow
    · rename_i hother
      rw [if_pos hother] at hhigh
      cases hlow
      cases hhigh
      exact hle
    · rename_i hother
      rw [if_neg hother] at hhigh
      exact hwithin.le hlow hhigh

end Store

namespace Instruction

variable {left right store : Store Interval} {instruction : Instruction} {low high : Interval}

/-- The lower end of the interval overflows inward and is given up. -/
def LowerOverflowsInward (store : Store Interval) : Instruction → Prop
  | binary opcode lhs rhs =>
    opcode = .add ∧ (lhs.interval store).lower.SumAbove (rhs.interval store).lower ∨
      opcode = .sub ∧ (lhs.interval store).lower.DifferenceAbove (rhs.interval store).upper
  | _ => False

/-- The upper end of the interval overflows inward and is given up. -/
def UpperOverflowsInward (store : Store Interval) : Instruction → Prop
  | binary opcode lhs rhs =>
    opcode = .add ∧ (lhs.interval store).upper.SumBelow (rhs.interval store).upper ∨
      opcode = .sub ∧ (lhs.interval store).upper.DifferenceBelow (rhs.interval store).lower
  | _ => False

instance (store : Store Interval) (instruction : Instruction) :
    Decidable (instruction.LowerOverflowsInward store) :=
  match instruction with
  | binary .. => inferInstanceAs (Decidable (_ ∧ _ ∨ _ ∧ _))
  | phi .. | select .. | compare .. | cast .. | alloca .. | load .. | Instruction.store .. | call ..
  | other .. => .isFalse id

instance (store : Store Interval) (instruction : Instruction) :
    Decidable (instruction.UpperOverflowsInward store) :=
  match instruction with
  | binary .. => inferInstanceAs (Decidable (_ ∧ _ ∨ _ ∧ _))
  | phi .. | select .. | compare .. | cast .. | alloca .. | load .. | Instruction.store .. | call ..
  | other .. => .isFalse id

/-- The result under the larger store contains the result under the smaller one exactly if it makes
up for every end that was given up. -/
theorem transfer_le_transfer_iff (hwithin : left.Within right) (hleft : left.WellFormed)
    (hright : right.WellFormed) (hlow : instruction.transfer left = .ok low)
    (hhigh : instruction.transfer right = .ok high) :
    low ≤ high ↔
      (instruction.LowerOverflowsInward left → high.lower = .negInf) ∧
        (instruction.UpperOverflowsInward left → high.upper = .posInf) := by
  have hoperand := Value.interval_le_interval hwithin
  cases instruction with
  | binary opcode lhs rhs =>
      rcases BinaryOp.apply_eq_ok_iff.mp hlow with ⟨rfl, rfl⟩ | ⟨rfl, rfl⟩ | ⟨hopcode, rfl⟩
      · cases hhigh
        simpa [LowerOverflowsInward, UpperOverflowsInward] using
          Interval.add_le_add_iff (hoperand lhs) (hoperand rhs)
      · cases hhigh
        simpa [LowerOverflowsInward, UpperOverflowsInward] using
          Interval.sub_le_sub_iff (rhs.wellFormed_interval hleft) (rhs.wellFormed_interval hright)
            (hoperand lhs) (hoperand rhs)
      · -- Products and quotients are not constrained under either store.
        rcases hopcode with rfl | rfl <;> cases hhigh <;>
          exact iff_of_true (le_refl _) ⟨fun _ => rfl, fun _ => rfl⟩
  | _ =>
      exact iff_of_true (transfer_le_transfer hwithin hleft hright id hlow hhigh)
        ⟨False.elim, False.elim⟩

theorem offending_eq_false_of_transfer (hlow : instruction.transfer store = .ok low) :
    instruction.offending = false := by
  rw [← isSome_offence?, Option.isSome_eq_false_iff, Option.isNone_iff_eq_none]
  cases hoffence : instruction.offence? with
  | none => rfl
  | some fault =>
      rw [transfer_of_offence? hoffence] at hlow
      cases hlow

end Instruction

namespace Body

/-- Evaluating an instruction under a larger store succeeds as well, and the result contains the
former one, except that an end which overflowed inward under the smaller store has been given up: the
results are ordered if and only if every such end is infinite under the larger store too. Only sums
and differences overflow. -/
theorem evaluate_monotone_up_to_overflow {body : Body} {id : Nat} {left right : Store Interval}
    {low : Interval} (hwithin : left.Within right) (hleft : left.WellFormed)
    (hright : right.WellFormed) (hlow : body.evaluate id left = .ok low) :
    ∃ node high, body.node? id = some node ∧ body.evaluate id right = .ok high ∧
      (low ≤ high ↔
        (node.instruction.LowerOverflowsInward left → high.lower = .negInf) ∧
          (node.instruction.UpperOverflowsInward left → high.upper = .posInf)) := by
  obtain ⟨node, hnode, hlow⟩ := evaluate_eq_ok_iff.mp hlow
  obtain ⟨high, hhigh⟩ := Instruction.exists_transfer_eq_ok (Instruction.tracked_of_transfer hlow)
    (Instruction.offending_eq_false_of_transfer hlow) right
  exact ⟨node, high, hnode, evaluate_eq_ok_iff.mpr ⟨node, hnode, hhigh⟩,
    Instruction.transfer_le_transfer_iff hwithin hleft hright hlow hhigh⟩

/-- The counting loop with a given interval of the counter, before the sum is evaluated. -/
def counterStore (counter : Interval) : Store Interval :=
  ((∅ : Store Interval).insert 0 counter).insert 1 .empty

theorem wellFormed_counterStore {counter : Interval} (hcounter : counter.WellFormed) :
    (counterStore counter).WellFormed :=
  (Store.wellFormed_empty.insert hcounter 0).insert Interval.wellFormed_empty 1

theorem counterStore_within {low high : Interval} (hle : low ≤ high) :
    (counterStore low).Within (counterStore high) :=
  ((Store.Within.refl ∅).insert_insert hle 0).insert_insert (le_refl _) 1

/-- From `[5,7]` to `[0,9]` the sum with one grows as it should; from the greatest integer alone,
where both ends overflow, to `[0,9223372036854775807]` it does not. -/
theorem countingBody_sums_compared :
    (∃ high, countingBody.evaluate 1 (counterStore ⟨.finite 0, .finite 9⟩) = .ok high ∧
        ⟨.finite 6, .finite 8⟩ ≤ high) ∧
      ∃ high, countingBody.evaluate 1
          (counterStore ⟨.finite 0, .finite Int64.maxValue⟩) = .ok high ∧ ¬ .full ≤ high := by
  have hfirst : (countingBody.evaluate 1 (counterStore ⟨.finite 5, .finite 7⟩)) =
      .ok ⟨.finite 6, .finite 8⟩ := rfl
  have hsecond : (countingBody.evaluate 1 (counterStore (.constant Int64.maxValue))) =
      .ok .full := rfl
  constructor
  · obtain ⟨node, high, hnode, hhigh, hiff⟩ := evaluate_monotone_up_to_overflow
      (@counterStore_within _ ⟨.finite 0, .finite 9⟩ (by decide))
      (wellFormed_counterStore (by decide)) (wellFormed_counterStore (by decide)) hfirst
    cases hnode
    exact ⟨high, hhigh, hiff.mpr ⟨fun hlower => absurd hlower (by decide),
      fun hupper => absurd hupper (by decide)⟩⟩
  · obtain ⟨node, high, hnode, hhigh, hiff⟩ := evaluate_monotone_up_to_overflow
      (@counterStore_within _ ⟨.finite 0, .finite Int64.maxValue⟩ (by decide))
      (wellFormed_counterStore (by decide)) (wellFormed_counterStore (by decide)) hsecond
    cases hnode
    refine ⟨high, hhigh, fun hle => ?_⟩
    have hlower := (hiff.mp hle).1 (by decide)
    cases hhigh
    exact absurd hlower (by decide)

/-- In the counting loop, the interval of the sum shrinks when that of the counter grows from the
greatest integer alone to all nonnegative ones. -/
theorem countingBody_sum_shrinks :
    Function.ofDocument countingLoop = .ok countingFunction ∧
      countingFunction.body = some countingBody ∧ countingBody.tracked 1 = true ∧
      (counterStore (.constant Int64.maxValue)).WellFormed ∧
      (counterStore ⟨.finite 0, .finite Int64.maxValue⟩).WellFormed ∧
      (counterStore (.constant Int64.maxValue)).Within
        (counterStore ⟨.finite 0, .finite Int64.maxValue⟩) ∧
      countingBody.evaluate 1 (counterStore (.constant Int64.maxValue)) = .ok .full ∧
      countingBody.evaluate 1 (counterStore ⟨.finite 0, .finite Int64.maxValue⟩) =
        .ok ⟨.finite 1, .posInf⟩ ∧
      ¬ Interval.full ≤ ⟨.finite 1, .posInf⟩ :=
  ⟨ofDocument_countingLoop, rfl, rfl, wellFormed_counterStore (by decide),
    wellFormed_counterStore (by decide), counterStore_within (by decide), rfl, rfl, by decide⟩

end Body

end ValueRange

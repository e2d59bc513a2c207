import ValueRange.Proofs.IntervalArithmetic

/-!
# Intervals on a ray

Adding the same amount over and over to a first value, and joining the results, gives intervals on a
ray: one end stays at the first value, the other one moves away from it. The moving end gets to
infinity by widening or because the sum overflows. All that a loop needs to know about this is put
together in `Interval.Progress`, and shown for counting up and for counting down.
-/

namespace ValueRange

theorem toInt_add_of_bounds {left right : Int64}
    (hlower : Int64.minValue.toInt ≤ left.toInt + right.toInt)
    (hupper : left.toInt + right.toInt ≤ Int64.maxValue.toInt) :
    (left + right).toInt = left.toInt + right.toInt := by
  rw [Int64.toInt_minValue] at hlower
  rw [Int64.toInt_maxValue] at hupper
  rw [Int64.toInt_add]
  exact Int.bmod_eq_of_le (by omega) (by omega)

theorem toInt_neg_of_pos {step : Int64} (hstep : 0 < step.toInt) : (-step).toInt = -step.toInt := by
  have hupper := step.toInt_le
  rw [Int64.toInt_maxValue] at hupper
  rw [Int64.toInt_neg]
  exact Int.bmod_eq_of_le (by omega) (by omega)

/-! ## Ends that move -/

namespace Bound

variable {bound : Bound} {step : Int64}

/-- Adding a positive amount moves an upper end outward, unless it is at infinity. -/
theorem lt_addUpper (hstep : 0 < step.toInt) (hlower : bound ≠ negInf) (hupper : bound ≠ posInf) :
    bound < bound.addUpper (finite step) := by
  obtain ⟨value, rfl⟩ := exists_eq_finite hlower hupper
  rw [addUpper, lt_iff_rank]
  obtain ⟨kept, hkept, heq⟩ | ⟨_, heq⟩ := ofInt_cases (value.toInt + step.toInt) posInf <;>
    rw [heq]
  · simp only [rank, hkept]
    omega
  · have hvalue := value.toInt_le
    simp only [rank]
    omega

theorem le_addUpper (hstep : 0 < step.toInt) (hlower : bound ≠ negInf) :
    bound ≤ bound.addUpper (finite step) := by
  by_cases hupper : bound = posInf
  · rw [hupper, posInf_addUpper (by simp)]
  · exact (lt_addUpper hstep hlower hupper).le

/-- Adding a negative amount moves a lower end outward, unless it is at infinity. -/
theorem addLower_lt (hstep : step.toInt < 0) (hlower : bound ≠ negInf) (hupper : bound ≠ posInf) :
    bound.addLower (finite step) < bound := by
  obtain ⟨value, rfl⟩ := exists_eq_finite hlower hupper
  rw [addLower, lt_iff_rank]
  obtain ⟨kept, hkept, heq⟩ | ⟨_, heq⟩ := ofInt_cases (value.toInt + step.toInt) negInf <;>
    rw [heq]
  · simp only [rank, hkept]
    omega
  · have hvalue := value.minValue_le_toInt
    simp only [rank]
    omega

theorem addLower_le (hstep : step.toInt < 0) (hupper : bound ≠ posInf) :
    bound.addLower (finite step) ≤ bound := by
  by_cases hlower : bound = negInf
  · rw [hlower, negInf_addLower (by simp)]
  · exact (addLower_lt hstep hlower hupper).le

theorem not_sumBelow_of_pos (hstep : 0 < step.toInt) : ¬ bound.SumBelow (finite step) := by
  cases bound with
  | finite value =>
      have hvalue := value.minValue_le_toInt
      exact Int.not_lt.mpr (by omega)
  | _ => exact id

theorem not_sumAbove_of_neg (hstep : step.toInt < 0) : ¬ bound.SumAbove (finite step) := by
  cases bound with
  | finite value =>
      have hvalue := value.toInt_le
      exact Int.not_lt.mpr (by omega)
  | _ => exact id

end Bound

/-! ## Rays -/

namespace Interval

/-- The intervals on a ray. They grow from `start` on when `next` is joined to it, only `top` does
not grow, and what has grown is widened to `top`. -/
structure Progress (start top : Interval) (next : Interval → Interval) (OnRay : Interval → Prop) :
    Prop where
  start_mem : OnRay start
  top_mem : OnRay top
  ne_empty : ∀ {interval}, OnRay interval → interval ≠ empty
  le_top : ∀ {interval}, OnRay interval → interval ≤ top
  next_empty : next empty = empty
  next_le_next : ∀ {left right}, OnRay left → OnRay right → left ≤ right → next left ≤ next right
  join_mem : ∀ {interval}, OnRay interval → OnRay (start.lub (next interval))
  le_join : ∀ {interval}, OnRay interval → interval ≤ start.lub (next interval)
  eq_top : ∀ {interval}, OnRay interval → start.lub (next interval) ≤ interval → interval = top
  widen_eq : ∀ {current previous}, OnRay current → OnRay previous → previous < current →
    current.widen previous = top
  next_widen : ∀ {previous}, OnRay previous → (next top).widen (next previous) = next top

/-! ## Counting up and down -/

/-- The intervals from a first value up to some end. -/
def UpFrom (start : Int64) (interval : Interval) : Prop :=
  interval.lower = .finite start ∧ .finite start ≤ interval.upper

/-- The intervals from a first value down to some end. -/
def DownFrom (start : Int64) (interval : Interval) : Prop :=
  interval.upper = .finite start ∧ interval.lower ≤ .finite start

section Up

variable {start step : Int64} {interval : Interval}

theorem UpFrom.ne_empty (hinterval : interval.UpFrom start) : interval ≠ empty := by
  rintro rfl
  cases hinterval.1

theorem UpFrom.upper_ne_negInf (hinterval : interval.UpFrom start) : interval.upper ≠ .negInf :=
  Bound.ne_negInf_of_le hinterval.2 Bound.noConfusion

theorem UpFrom.add_eq (hinterval : interval.UpFrom start) (hstep : 0 < step.toInt)
    (hroom : start.toInt + step.toInt ≤ Int64.maxValue.toInt) :
    interval.add (constant step) =
      ⟨.finite (start + step), interval.upper.addUpper (.finite step)⟩ := by
  have hstart := start.minValue_le_toInt
  have hsum := toInt_add_of_bounds (by omega) hroom
  simp only [add, constant, hinterval.1, Bound.addLower, ← hsum, Bound.ofInt_toInt]

theorem UpFrom.join_eq (hinterval : interval.UpFrom start) (hstep : 0 < step.toInt)
    (hroom : start.toInt + step.toInt ≤ Int64.maxValue.toInt) :
    (constant start).lub (interval.add (constant step)) =
      ⟨.finite start, interval.upper.addUpper (.finite step)⟩ := by
  have hstart := start.minValue_le_toInt
  have hsum := toInt_add_of_bounds (by omega) hroom
  rw [lub_eq, hinterval.add_eq hstep hroom]
  refine Interval.ext (min_eq_left (Bound.finite_le_finite.mpr (by omega))) (max_eq_right ?_)
  exact hinterval.2.trans (Bound.le_addUpper hstep hinterval.upper_ne_negInf)

theorem up_top_add (hstep : 0 < step.toInt)
    (hroom : start.toInt + step.toInt ≤ Int64.maxValue.toInt) :
    (⟨.finite start, .posInf⟩ : Interval).add (constant step) =
      ⟨.finite (start + step), .posInf⟩ := by
  have htop : UpFrom start ⟨.finite start, .posInf⟩ := ⟨rfl, Bound.le_posInf _⟩
  rw [htop.add_eq hstep hroom, Bound.posInf_addUpper (by simp)]

/-- Counting up keeps the lower end and moves the upper one to infinity. -/
theorem progress_up (hstep : 0 < step.toInt)
    (hroom : start.toInt + step.toInt ≤ Int64.maxValue.toInt) :
    Progress (constant start) ⟨.finite start, .posInf⟩ (fun interval => interval.add (constant step))
      (UpFrom start) where
  start_mem := ⟨rfl, le_refl _⟩
  top_mem := ⟨rfl, Bound.le_posInf _⟩
  ne_empty := UpFrom.ne_empty
  le_top hinterval := ⟨hinterval.1.ge, Bound.le_posInf _⟩
  next_empty := rfl
  next_le_next hleft hright hle := by
    rw [hleft.add_eq hstep hroom, hright.add_eq hstep hroom]
    exact ⟨le_refl _, Bound.addUpper_mono hle.2 (le_refl _) (Bound.not_sumBelow_of_pos hstep)⟩
  join_mem hinterval := by
    rw [hinterval.join_eq hstep hroom]
    exact ⟨rfl, hinterval.2.trans (Bound.le_addUpper hstep hinterval.upper_ne_negInf)⟩
  le_join hinterval := by
    rw [hinterval.join_eq hstep hroom]
    exact ⟨hinterval.1.ge, Bound.le_addUpper hstep hinterval.upper_ne_negInf⟩
  eq_top hinterval hle := by
    rw [hinterval.join_eq hstep hroom] at hle
    refine Interval.ext hinterval.1 ?_
    by_contra hupper
    exact absurd hle.2 (not_le.mpr (Bound.lt_addUpper hstep hinterval.upper_ne_negInf hupper))
  widen_eq {current previous} hcurrent hprevious hlt := by
    have hmoved : previous.upper < current.upper := by
      refine lt_of_le_of_ne hlt.le.2 fun hupper => hlt.ne ?_
      exact Interval.ext (hprevious.1.trans hcurrent.1.symm) hupper
    rw [widen, if_neg hprevious.ne_empty, hcurrent.1, hprevious.1, if_neg (lt_irrefl _),
      if_pos hmoved]
  next_widen {previous} hprevious := by
    rw [hprevious.add_eq hstep hroom, up_top_add hstep hroom, widen, if_neg (by simp [empty]),
      if_neg (lt_irrefl _), ite_self]

end Up

section Down

variable {start step : Int64} {interval : Interval}

theorem DownFrom.ne_empty (hinterval : interval.DownFrom start) : interval ≠ empty := by
  rintro rfl
  cases hinterval.1

theorem DownFrom.lower_ne_posInf (hinterval : interval.DownFrom start) :
    interval.lower ≠ .posInf :=
  Bound.ne_posInf_of_le hinterval.2 Bound.noConfusion

theorem DownFrom.add_eq (hinterval : interval.DownFrom start) (hstep : step.toInt < 0)
    (hroom : Int64.minValue.toInt ≤ start.toInt + step.toInt) :
    interval.add (constant step) =
      ⟨interval.lower.addLower (.finite step), .finite (start + step)⟩ := by
  have hstart := start.toInt_le
  have hsum := toInt_add_of_bounds hroom (by omega)
  simp only [add, constant, hinterval.1, Bound.addUpper, ← hsum, Bound.ofInt_toInt]

theorem DownFrom.join_eq (hinterval : interval.DownFrom start) (hstep : step.toInt < 0)
    (hroom : Int64.minValue.toInt ≤ start.toInt + step.toInt) :
    (constant start).lub (interval.add (constant step)) =
      ⟨interval.lower.addLower (.finite step), .finite start⟩ := by
  have hstart := start.toInt_le
  have hsum := toInt_add_of_bounds hroom (by omega)
  rw [lub_eq, hinterval.add_eq hstep hroom]
  refine Interval.ext (min_eq_right ?_) (max_eq_left (Bound.finite_le_finite.mpr (by omega)))
  exact (Bound.addLower_le hstep hinterval.lower_ne_posInf).trans hinterval.2

theorem down_top_add (hstep : step.toInt < 0)
    (hroom : Int64.minValue.toInt ≤ start.toInt + step.toInt) :
    (⟨.negInf, .finite start⟩ : Interval).add (constant step) =
      ⟨.negInf, .finite (start + step)⟩ := by
  have htop : DownFrom start ⟨.negInf, .finite start⟩ := ⟨rfl, Bound.negInf_le _⟩
  rw [htop.add_eq hstep hroom, Bound.negInf_addLower (by simp)]

/-- Counting down keeps the upper end and moves the lower one to infinity. -/
theorem progress_down (hstep : step.toInt < 0)
    (hroom : Int64.minValue.toInt ≤ start.toInt + step.toInt) :
    Progress (constant start) ⟨.negInf, .finite start⟩ (fun interval => interval.add (constant step))
      (DownFrom start) where
  start_mem := ⟨rfl, le_refl _⟩
  top_mem := ⟨rfl, Bound.negInf_le _⟩
  ne_empty := DownFrom.ne_empty
  le_top hinterval := ⟨Bound.negInf_le _, hinterval.1.le⟩
  next_empty := rfl
  next_le_next hleft hright hle := by
    rw [hleft.add_eq hstep hroom, hright.add_eq hstep hroom]
    exact ⟨Bound.addLower_mono hle.1 (le_refl _) (Bound.not_sumAbove_of_neg hstep), le_refl _⟩
  join_mem hinterval := by
    rw [hinterval.join_eq hstep hroom]
    exact ⟨rfl, (Bound.addLower_le hstep hinterval.lower_ne_posInf).trans hinterval.2⟩
  le_join hinterval := by
    rw [hinterval.join_eq hstep hroom]
    exact ⟨Bound.addLower_le hstep hinterval.lower_ne_posInf, hinterval.1.le⟩
  eq_top hinterval hle := by
    rw [hinterval.join_eq hstep hroom] at hle
    refine Interval.ext ?_ hinterval.1
    by_contra hlower
    exact absurd hle.1 (not_le.mpr (Bound.addLower_lt hstep hlower hinterval.lower_ne_posInf))
  widen_eq {current previous} hcurrent hprevious hlt := by
    have hmoved : current.lower < previous.lower := by
      refine lt_of_le_of_ne hlt.le.1 fun hlower => hlt.ne ?_
      exact Interval.ext hlower.symm (hprevious.1.trans hcurrent.1.symm)
    rw [widen, if_neg hprevious.ne_empty, hcurrent.1, hprevious.1, if_neg (lt_irrefl _),
      if_pos hmoved]
  next_widen {previous} hprevious := by
    rw [hprevious.add_eq hstep hroom, down_top_add hstep hroom, widen, if_neg (by simp [empty]),
      if_neg (lt_irrefl _), ite_self]

/-- Taking a positive amount away adds its negation. -/
theorem sub_constant (hstep : 0 < step.toInt) (interval : Interval) :
    interval.sub (constant step) = interval.add (constant (-step)) := by
  rw [sub, (wellFormed_constant step).neg_eq]
  simp only [constant, Bound.negLower, Bound.negUpper, ← toInt_neg_of_pos hstep, Bound.ofInt_toInt]

end Down

end Interval

end ValueRange

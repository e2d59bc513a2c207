import Mathlib.Data.Nat.Count
import ValueRange.Proofs.Convergence

/-!
# What widening covers

Widening moves the ends that lie further out than before to infinity and takes all other ends from
the new interval. The result contains the new interval, but the previous one only if the new one
does. Hence intervals that are widened one after the other settle quickly as long as each new one
contains the result so far: after a first interval with values, every change closes an end. A new
interval that does not contain the result so far may open both ends again, and so a sequence in which
an end moves in and out changes the result for ever.
-/

namespace ValueRange.Interval

/-- Widening keeps the values of the previous interval only if the new one has them. -/
theorem le_widen_iff {current previous : Interval} :
    previous ≤ current.widen previous ↔ previous ≤ current := by
  refine ⟨fun hle => ?_, fun hle => hle.trans (le_widen current previous)⟩
  by_cases hprevious : previous = empty
  · rw [hprevious]
    exact empty_le _
  · obtain ⟨hlower, hupper⟩ := hle
    rw [widen, if_neg hprevious] at hlower hupper
    dsimp only at hlower hupper
    constructor
    · split at hlower
      · rename_i hmoved
        exact hmoved.le
      · exact hlower
    · split at hupper
      · rename_i hmoved
        exact hmoved.le
      · exact hupper

/-- A lower end that is not further out than before is kept. -/
theorem lower_widen_of_le {current previous : Interval} (hlower : previous.lower ≤ current.lower) :
    (current.widen previous).lower = current.lower := by
  unfold widen
  split
  · rfl
  · exact if_neg (not_lt.mpr hlower)

/-- An upper end that is not further out than before is kept. -/
theorem upper_widen_of_le {current previous : Interval} (hupper : current.upper ≤ previous.upper) :
    (current.widen previous).upper = current.upper := by
  unfold widen
  split
  · rfl
  · exact if_neg (not_lt.mpr hupper)

/-! ## Widening one after the other -/

/-- The result of widening so many of the new intervals one after the other, from the empty one. -/
def widenChain (news : Nat → Interval) : Nat → Interval
  | 0 => empty
  | steps + 1 => (news steps).widen (widenChain news steps)

/-- The number of steps that change the result. -/
def changes (news : Nat → Interval) (steps : Nat) : Nat :=
  Nat.count (fun step => widenChain news (step + 1) ≠ widenChain news step) steps

/-- The number of new intervals that do not contain the result so far. -/
def lapses (news : Nat → Interval) (steps : Nat) : Nat :=
  Nat.count (fun step => ¬ widenChain news step ≤ news step) steps

/-- Every change by which widening lets an interval grow uses up one of three. -/
theorem credit_widen_lt {current previous : Interval} (hlt : previous < current.widen previous) :
    (current.widen previous).credit 0 0 < previous.credit 0 0 := by
  have hgrown : current.widen previous ≠ empty := by
    intro hempty
    rw [hempty] at hlt
    exact absurd (empty_le _) hlt.not_ge
  rw [credit, if_neg hgrown]
  by_cases hprevious : previous = empty
  · have hends := (current.widen previous).openEnds_le_two
    rw [credit, if_pos hprevious]
    omega
  · have hclosed := openEnds_widen_lt hprevious hlt
    rw [credit, if_neg hprevious]
    omega

/-- A lapse pays for its own change and for three more. -/
theorem changes_add_credit_le (news : Nat → Interval) (steps : Nat) :
    changes news steps + (widenChain news steps).credit 0 0 ≤ 3 + 4 * lapses news steps := by
  induction steps with
  | zero =>
      rw [changes, lapses, Nat.count_zero, Nat.count_zero]
      exact Nat.le_refl 3
  | succ steps ih =>
      have hchanges : changes news (steps + 1) = changes news steps +
          if widenChain news (steps + 1) ≠ widenChain news steps then 1 else 0 := Nat.count_succ _ _
      have hlapses : lapses news (steps + 1) = lapses news steps +
          if ¬ widenChain news steps ≤ news steps then 1 else 0 := Nat.count_succ _ _
      rw [hchanges, hlapses]
      by_cases hlapse : widenChain news steps ≤ news steps
      · rw [if_neg (not_not.mpr hlapse)]
        have hle : widenChain news steps ≤ widenChain news (steps + 1) := le_widen_iff.mpr hlapse
        split
        · rename_i hchange
          have hcredit : (widenChain news (steps + 1)).credit 0 0 <
              (widenChain news steps).credit 0 0 :=
            credit_widen_lt (lt_of_le_of_ne hle (Ne.symm hchange))
          omega
        · rename_i hsame
          rw [not_not.mp hsame]
          omega
      · rw [if_pos hlapse]
        have hcredit := (widenChain news (steps + 1)).credit_le 0 0
        split <;> omega

theorem lapses_eq_zero {news : Nat → Interval}
    (hcontains : ∀ step, widenChain news step ≤ news step) (steps : Nat) :
    lapses news steps = 0 :=
  Nat.count_iff_forall_not.mpr fun step _ => not_not.mpr (hcontains step)

/-- The result of widening contains the new interval, and it contains the previous one if and only if
the new one does. An end of the new interval that is not further out than that of the previous one
is kept. Widening any number of intervals one after the other, from the empty one, changes the result
at most three times if each of them contains the result so far. In general it does so at most three
times, and four times more for each new interval that does not contain the result so far. -/
theorem widen_covers_new_and_settles :
    (∀ current previous : Interval, current ≤ current.widen previous ∧
        (previous ≤ current.widen previous ↔ previous ≤ current) ∧
        (previous.lower ≤ current.lower → (current.widen previous).lower = current.lower) ∧
        (current.upper ≤ previous.upper → (current.widen previous).upper = current.upper)) ∧
      (∀ news : Nat → Interval, (∀ step, widenChain news step ≤ news step) →
        ∀ steps, changes news steps ≤ 3) ∧
      ∀ news steps, changes news steps ≤ 3 + 4 * lapses news steps := by
  have hbound : ∀ news steps, changes news steps ≤ 3 + 4 * lapses news steps :=
    fun news steps => (Nat.le_add_right _ _).trans (changes_add_credit_le news steps)
  refine ⟨fun current previous => ⟨le_widen current previous, le_widen_iff, lower_widen_of_le,
    upper_widen_of_le⟩, ?_, hbound⟩
  intro news hcontains steps
  have hsteps := hbound news steps
  rwa [lapses_eq_zero hcontains] at hsteps

/-- Intervals that grow at one end after the other. -/
def growing : Nat → Interval
  | 0 => constant 0
  | 1 => ⟨.finite 0, .finite 1⟩
  | _ => full

/-- Intervals that grow at one end after the other and then lose all values, over and over. -/
def collapsing (step : Nat) : Interval := if step % 4 = 3 then empty else growing (step % 4)

/-- Three changes are made by intervals that grow, and four more for each time they collapse. -/
theorem growing_changes_three_times :
    (∀ step, widenChain growing step ≤ growing step) ∧ (∀ steps, changes growing steps ≤ 3) ∧
      changes growing 3 = 3 ∧ lapses collapsing 7 = 1 ∧ changes collapsing 7 = 7 := by
  have hcontains : ∀ step, widenChain growing step ≤ growing step
    | 0 | 1 => by decide
    | _ + 2 => le_full _
  exact ⟨hcontains, widen_covers_new_and_settles.2.1 growing hcontains, by decide, by decide,
    by decide⟩

/-! ## An end that moves in and out -/

/-- Intervals whose upper end moves out and in. -/
def alternating (step : Nat) : Interval :=
  if step % 2 = 0 then constant 0 else ⟨.finite 0, .finite 1⟩

theorem widenChain_alternating (steps : Nat) :
    widenChain alternating (steps + 1) =
      if steps % 2 = 0 then constant 0 else ⟨.finite 0, .posInf⟩ := by
  induction steps with
  | zero => decide
  | succ steps ih =>
      rw [widenChain, ih, alternating]
      rcases Nat.mod_two_eq_zero_or_one steps with hsteps | hsteps
      · have hnext : (steps + 1) % 2 = 1 := by omega
        rw [hsteps, hnext]
        decide
      · have hnext : (steps + 1) % 2 = 0 := by omega
        rw [hsteps, hnext]
        decide

/-- Widening the single value zero against all values from zero on loses the value one. As the new
intervals alternate between two that have the agreed shape, every step changes the result. -/
theorem alternating_never_settles :
    (1 ∈ (⟨.finite 0, .posInf⟩ : Interval) ∧
        1 ∉ (constant 0).widen ⟨.finite 0, .posInf⟩) ∧
      (∀ step, (alternating step).WellFormed) ∧ ∀ steps, changes alternating steps = steps := by
  refine ⟨by decide, fun step => ?_, fun steps => Nat.count_iff_forall.mpr fun step _ => ?_⟩
  · unfold alternating
    split <;> decide
  · cases step with
    | zero => decide
    | succ step =>
        rw [widenChain_alternating, widenChain_alternating]
        rcases Nat.mod_two_eq_zero_or_one step with hstep | hstep
        · have hnext : (step + 1) % 2 = 1 := by omega
          rw [hstep, hnext]
          decide
        · have hnext : (step + 1) % 2 = 0 := by omega
          rw [hstep, hnext]
          decide

end ValueRange.Interval

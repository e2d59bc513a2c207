import Mathlib.Data.List.Nodup
import ValueRange.Worklist

/-!
# Worklists as duplicate-free queues

A worklist keeps its nodes twice, in order and as a set. It is faithful if both hold the same nodes
and no node waits twice. Every operation keeps a worklist faithful, and on a faithful worklist each
of them has its plain effect on the list of pending nodes.
-/

namespace ValueRange

namespace Worklist

/-- Queue and set agree, and no node waits twice. -/
structure Faithful (worklist : Worklist) : Prop where
  /-- No node waits twice. -/
  nodup : worklist.toList.Nodup
  /-- The set holds the queued nodes. -/
  contains_iff : ∀ id, worklist.contains id = true ↔ id ∈ worklist.toList

theorem faithful_empty : empty.Faithful where
  nodup := List.nodup_nil
  contains_iff id := by simp [contains, empty, toList]

theorem contains_push (worklist : Worklist) (id other : Nat) :
    (worklist.push id).contains other = (decide (id = other) || worklist.contains other) := by
  unfold push offer
  split
  · rename_i hid
    by_cases hother : id = other
    · simp [← hother, hid]
    · simp [hother]
  · simp only [contains, Std.TreeSet.contains_insert]
    by_cases hother : id = other <;> simp [hother]

theorem contains_of_pop? {worklist rest : Worklist} {id : Nat}
    (hpop : worklist.pop? = some (id, rest)) (other : Nat) :
    rest.contains other = (decide (id ≠ other) && worklist.contains other) := by
  obtain ⟨_, hpending⟩ := toList_of_pop? hpop
  unfold contains
  rw [hpending, Std.TreeSet.contains_erase]
  congr 1
  by_cases hother : id = other <;> simp [hother]

namespace Faithful

variable {worklist : Worklist}

theorem contains_eq_false_iff (hworklist : worklist.Faithful) {id : Nat} :
    worklist.contains id = false ↔ id ∉ worklist.toList := by
  rw [← hworklist.contains_iff, Bool.not_eq_true]

theorem push (hworklist : worklist.Faithful) (id : Nat) : (worklist.push id).Faithful where
  nodup := by
    rw [toList_push]
    split
    · exact hworklist.nodup
    · rename_i hid
      rw [hworklist.contains_iff] at hid
      exact hworklist.nodup.append (List.nodup_singleton id) (by simpa using hid)
  contains_iff other := by
    rw [contains_push, toList_push]
    simp only [Bool.or_eq_true, decide_eq_true_eq, hworklist.contains_iff]
    split
    · rename_i hid
      exact or_iff_right_of_imp fun heq => heq ▸ hid
    · simp [or_comm, eq_comm]

theorem pop (hworklist : worklist.Faithful) {rest : Worklist} {id : Nat}
    (hpop : worklist.pop? = some (id, rest)) : rest.Faithful where
  nodup := by
    have hnodup := hworklist.nodup
    rw [(toList_of_pop? hpop).1] at hnodup
    exact (List.nodup_cons.mp hnodup).2
  contains_iff other := by
    have hnodup := hworklist.nodup
    rw [(toList_of_pop? hpop).1, List.nodup_cons] at hnodup
    rw [contains_of_pop? hpop, Bool.and_eq_true, decide_eq_true_eq, hworklist.contains_iff,
      (toList_of_pop? hpop).1, List.mem_cons]
    constructor
    · rintro ⟨hne, rfl | hother⟩
      · exact absurd rfl hne
      · exact hother
    · intro hother
      exact ⟨fun heq => hnodup.1 (heq ▸ hother), Or.inr hother⟩

theorem mem_push (hworklist : worklist.Faithful) {id other : Nat} :
    other ∈ (worklist.push id).toList ↔ other ∈ worklist.toList ∨ other = id := by
  rw [← (hworklist.push id).contains_iff, contains_push, Bool.or_eq_true, decide_eq_true_eq,
    hworklist.contains_iff, or_comm, eq_comm]

theorem pushAll (hworklist : worklist.Faithful) (ids : List Nat) :
    (worklist.pushAll ids).Faithful := by
  unfold Worklist.pushAll
  induction ids generalizing worklist with
  | nil => exact hworklist
  | cons id ids ih => exact ih (hworklist.push id)

theorem mem_pushAll (hworklist : worklist.Faithful) {ids : List Nat} {other : Nat} :
    other ∈ (worklist.pushAll ids).toList ↔ other ∈ worklist.toList ∨ other ∈ ids := by
  unfold Worklist.pushAll
  induction ids generalizing worklist with
  | nil => simp
  | cons id ids ih =>
      rw [List.foldl_cons, ih (hworklist.push id), hworklist.mem_push, List.mem_cons, or_assoc]

/-- What pushing appends depends on the pending nodes only. -/
theorem toList_pushAll_eq {left right : Worklist} (hleft : left.Faithful) (hright : right.Faithful)
    (hlist : left.toList = right.toList) (ids : List Nat) :
    (left.pushAll ids).toList = (right.pushAll ids).toList := by
  unfold Worklist.pushAll
  induction ids generalizing left right with
  | nil => exact hlist
  | cons id ids ih =>
      have hcontains : left.contains id = right.contains id := by
        rw [Bool.eq_iff_iff, hleft.contains_iff, hright.contains_iff, hlist]
      refine ih (hleft.push id) (hright.push id) ?_
      rw [toList_push, toList_push, hcontains, hlist]

/-- Nodes that differ and do not wait are all appended, in order. -/
theorem appended_eq (hworklist : worklist.Faithful) {ids : List Nat} (hids : ids.Nodup)
    (hnew : ∀ id ∈ ids, id ∉ worklist.toList) : worklist.appended ids = ids := by
  induction ids generalizing worklist with
  | nil => rfl
  | cons id ids ih =>
      obtain ⟨hid, hids⟩ := List.nodup_cons.mp hids
      obtain ⟨hfirst, hrest⟩ := List.forall_mem_cons.mp hnew
      have hpushed : ∀ other ∈ ids, other ∉ (worklist.push id).toList := by
        intro other hother
        rw [hworklist.mem_push, not_or]
        exact ⟨hrest other hother, fun heq => hid (heq ▸ hother)⟩
      rw [Worklist.appended, hworklist.contains_eq_false_iff.mpr hfirst,
        ih (hworklist.push id) hids hpushed]
      rfl

end Faithful

/-- Pushing leaves the pending nodes in front. -/
theorem toList_pushAll (worklist : Worklist) (ids : List Nat) :
    (worklist.pushAll ids).toList = worklist.toList ++ worklist.appended ids := by
  unfold pushAll
  induction ids generalizing worklist with
  | nil => simp [appended]
  | cons id ids ih =>
      rw [List.foldl_cons, ih, toList_push, appended]
      by_cases hid : worklist.contains id = true
      · simp [hid, push_of_contains]
      · simp [hid]

theorem exists_pop?_of_toList {worklist : Worklist} {id : Nat} {ids : List Nat}
    (hlist : worklist.toList = id :: ids) :
    ∃ rest, worklist.pop? = some (id, rest) ∧ rest.toList = ids := by
  cases hpop : worklist.pop? with
  | none =>
      rw [pop?_eq_none_iff.mp hpop] at hlist
      cases hlist
  | some entry =>
      obtain ⟨first, rest⟩ := entry
      rw [(toList_of_pop? hpop).1, List.cons.injEq] at hlist
      obtain ⟨rfl, hrest⟩ := hlist
      exact ⟨rest, rfl, hrest⟩

theorem isEmpty_iff {worklist : Worklist} : worklist.isEmpty = true ↔ worklist.toList = [] := by
  simp [isEmpty, toList]

end Worklist

end ValueRange

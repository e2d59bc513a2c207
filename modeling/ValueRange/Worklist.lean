import Std.Data.TreeSet

/-!
# Worklists

A first-in first-out queue of nodes in which each node waits at most once. The queue is held as two
lists, so that both ends are cheap, beside the set of the waiting nodes, so that asking whether a
node waits is cheap too.
-/

namespace ValueRange

/-- A queue of pending nodes. -/
structure Worklist where
  /-- The nodes to be taken next, in order. -/
  front : List Nat
  /-- The nodes behind them, the latest first. -/
  back : List Nat
  /-- The nodes in the queue. -/
  pending : Std.TreeSet Nat

namespace Worklist

/-- The queue in which nothing waits. -/
def empty : Worklist := ⟨[], [], ∅⟩

instance : EmptyCollection Worklist := ⟨empty⟩

instance : Inhabited Worklist := ⟨empty⟩

/-- The pending nodes, the next one first. -/
def toList (worklist : Worklist) : List Nat := worklist.front ++ worklist.back.reverse

/-- Whether a node is pending. -/
def contains (worklist : Worklist) (id : Nat) : Bool := worklist.pending.contains id

/-- Number of pending nodes. -/
def size (worklist : Worklist) : Nat := worklist.front.length + worklist.back.length

/-- Whether no node is pending. -/
def isEmpty (worklist : Worklist) : Bool := worklist.front.isEmpty && worklist.back.isEmpty

/-- Append a node unless it is pending, and tell whether it has been appended. -/
def offer (worklist : Worklist) (id : Nat) : Bool × Worklist :=
  if worklist.contains id then (false, worklist)
  else (true, ⟨worklist.front, id :: worklist.back, worklist.pending.insert id⟩)

/-- Append a node unless it is pending. -/
def push (worklist : Worklist) (id : Nat) : Worklist := (worklist.offer id).2

/-- The next node and the queue without it. -/
def pop? (worklist : Worklist) : Option (Nat × Worklist) :=
  match worklist.front with
  | id :: front => some (id, ⟨front, worklist.back, worklist.pending.erase id⟩)
  | [] =>
    match worklist.back.reverse with
    | id :: front => some (id, ⟨front, [], worklist.pending.erase id⟩)
    | [] => none

@[simp]
theorem toList_empty : empty.toList = [] := rfl

theorem offer_eq (worklist : Worklist) (id : Nat) :
    worklist.offer id = (!worklist.contains id, worklist.push id) := by
  unfold push offer
  split <;> simp [*]

/-- Pushing a node that waits changes nothing. -/
theorem push_of_contains {worklist : Worklist} {id : Nat} (hid : worklist.contains id = true) :
    worklist.push id = worklist := by
  simp [push, offer, hid]

@[simp]
theorem toList_push (worklist : Worklist) (id : Nat) :
    (worklist.push id).toList =
      if worklist.contains id then worklist.toList else worklist.toList ++ [id] := by
  unfold push offer
  split <;> simp [toList]

theorem pop?_eq_none_iff {worklist : Worklist} : worklist.pop? = none ↔ worklist.toList = [] := by
  unfold pop? toList
  cases worklist.front with
  | cons id front => simp
  | nil => cases hback : worklist.back.reverse <;> simp

theorem toList_of_pop? {worklist rest : Worklist} {id : Nat}
    (hpop : worklist.pop? = some (id, rest)) :
    worklist.toList = id :: rest.toList ∧ rest.pending = worklist.pending.erase id := by
  unfold pop? at hpop
  cases hfront : worklist.front with
  | cons first front =>
    simp only [hfront, Option.some.injEq, Prod.mk.injEq] at hpop
    obtain ⟨rfl, rfl⟩ := hpop
    simp [toList, hfront]
  | nil =>
    cases hback : worklist.back.reverse with
    | nil => simp [hfront, hback] at hpop
    | cons first front =>
      simp only [hfront, hback, Option.some.injEq, Prod.mk.injEq] at hpop
      obtain ⟨rfl, rfl⟩ := hpop
      simp [toList, hfront, hback]

/-- Push nodes one after the other. -/
def pushAll (worklist : Worklist) (ids : List Nat) : Worklist := ids.foldl push worklist

/-- The nodes that pushing `ids` one after the other appends. -/
def appended (worklist : Worklist) : List Nat → List Nat
  | [] => []
  | id :: ids =>
    if worklist.contains id then worklist.appended ids
    else id :: (worklist.push id).appended ids

end Worklist

end ValueRange

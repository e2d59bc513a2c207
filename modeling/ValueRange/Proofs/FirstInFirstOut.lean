import ValueRange.Proofs.Queue

/-!
# First in, first out

From outside, a worklist is known by its answers to pushes and pops. They are those of a plain list
to which a node is appended unless it is a member, and whose first member is taken off. The two
stay in step through every sequence of operations, since an operation on a faithful worklist does to
its queue what it does to the plain list. Along such a sequence the nodes that were appended are, in
order, the nodes that were taken followed by those that still wait.
-/

namespace ValueRange.Worklist

/-! ## Operations and their answers -/

/-- What can be asked of a worklist that changes it. -/
inductive Operation where
  | push (id : Nat)
  | pop
deriving DecidableEq, Repr

/-- An operation with its answer. -/
inductive Exchange where
  /-- A node was pushed; the answer tells whether it has been appended. -/
  | push (id : Nat) (appended : Bool)
  /-- The next node was asked for; the answer is the node, if there was one. -/
  | pop (next : Option Nat)
deriving DecidableEq, Repr

namespace Exchange

/-- The node that was appended, if one was. -/
def appended : Exchange → List Nat
  | push id true => [id]
  | _ => []

/-- The node that was taken, if one was. -/
def taken : Exchange → List Nat
  | pop next => next.toList
  | _ => []

end Exchange

namespace Operation

/-- Carry out an operation on a worklist. -/
def onWorklist (worklist : Worklist) : Operation → Exchange × Worklist
  | push id =>
    let (appended, next) := worklist.offer id
    (.push id appended, next)
  | pop =>
    match worklist.pop? with
    | some (id, rest) => (.pop (some id), rest)
    | none => (.pop none, worklist)

/-- Carry out an operation on a plain list without duplicates. -/
def onQueue (queue : List Nat) : Operation → Exchange × List Nat
  | push id => if id ∈ queue then (.push id false, queue) else (.push id true, queue ++ [id])
  | pop => (.pop queue.head?, queue.tail)

end Operation

/-- Carry out operations one after the other; gives the exchanges and the final state. -/
def session {σ : Type} (perform : σ → Operation → Exchange × σ) :
    σ → List Operation → List Exchange × σ
  | state, [] => ([], state)
  | state, operation :: operations =>
    let (exchange, next) := perform state operation
    let (exchanges, final) := session perform next operations
    (exchange :: exchanges, final)

/-- All that can be learnt from a worklist is what its queue says. -/
structure Shows (worklist : Worklist) (queue : List Nat) : Prop where
  /-- The queue is what iteration goes through. -/
  toList : worklist.toList = queue
  /-- No node waits twice. -/
  nodup : queue.Nodup
  /-- The set of pending nodes is the set of queued ones. -/
  pending : ∀ id, id ∈ worklist.pending ↔ id ∈ queue
  /-- The nodes that count as pending are the queued ones. -/
  contains : ∀ id, worklist.contains id = true ↔ id ∈ queue
  /-- The size is the length of the queue. -/
  size : worklist.size = queue.length
  /-- The worklist is empty exactly if the queue is. -/
  isEmpty : worklist.isEmpty = true ↔ queue = []
  /-- A push succeeds exactly if the node is not queued. -/
  offer : ∀ id, (worklist.offer id).1 = true ↔ id ∉ queue
  /-- A push that succeeds appends the node at the back. -/
  offer_new : ∀ id, id ∉ queue → (worklist.offer id).2.toList = queue ++ [id]
  /-- A push that does not succeed changes nothing. -/
  offer_queued : ∀ id, id ∈ queue → (worklist.offer id).2 = worklist
  /-- A pop takes the first node of the queue. -/
  pop : worklist.pop?.map (Prod.map id Worklist.toList) =
    queue.head?.map fun first => (first, queue.tail)

theorem map_pop? (worklist : Worklist) :
    worklist.pop?.map (Prod.map id toList) =
      worklist.toList.head?.map fun first => (first, worklist.toList.tail) := by
  cases hpop : worklist.pop? with
  | none => simp [pop?_eq_none_iff.mp hpop]
  | some entry => simp [(toList_of_pop? hpop).1, Prod.map]

theorem Faithful.shows {worklist : Worklist} (hworklist : worklist.Faithful) :
    worklist.Shows worklist.toList where
  toList := rfl
  nodup := hworklist.nodup
  pending id := Std.TreeSet.contains_iff_mem.symm.trans (hworklist.contains_iff id)
  contains := hworklist.contains_iff
  size := by simp [Worklist.size, Worklist.toList]
  isEmpty := isEmpty_iff
  offer id := by rw [offer_eq, Bool.not_eq_true', hworklist.contains_eq_false_iff]
  offer_new id hid := by
    rw [offer_eq, toList_push, hworklist.contains_eq_false_iff.mpr hid]
    rfl
  offer_queued id hid := push_of_contains ((hworklist.contains_iff id).mpr hid)
  pop := map_pop? worklist

/-! ## Worklists and plain lists in step -/

section InStep

variable {worklist : Worklist} (hworklist : worklist.Faithful)

include hworklist

theorem Faithful.onWorklist (operation : Operation) :
    (operation.onWorklist worklist).2.Faithful := by
  cases operation with
  | push id => exact hworklist.push id
  | pop =>
      rw [Operation.onWorklist]
      split
      · rename_i hpop
        exact hworklist.pop hpop
      · exact hworklist

/-- An operation does to the queue of a faithful worklist what it does to a plain list, and it gives
the same answer. -/
theorem Faithful.map_onWorklist (operation : Operation) :
    (operation.onWorklist worklist).map id toList = operation.onQueue worklist.toList := by
  cases operation with
  | push id =>
      rw [Operation.onWorklist, Operation.onQueue, offer_eq]
      by_cases hid : id ∈ worklist.toList
      · have hcontains := (hworklist.contains_iff id).mpr hid
        simp [hid, hcontains]
      · have hcontains := hworklist.contains_eq_false_iff.mpr hid
        simp [hid, hcontains]
  | pop =>
      cases hpop : worklist.pop? with
      | none => simp [Operation.onWorklist, Operation.onQueue, hpop, pop?_eq_none_iff.mp hpop]
      | some entry => simp [Operation.onWorklist, Operation.onQueue, hpop, (toList_of_pop? hpop).1]

/-- Throughout a session the worklist stays faithful and in step with the plain list. -/
theorem Faithful.session (operations : List Operation) :
    (session Operation.onWorklist worklist operations).2.Faithful ∧
      (session Operation.onWorklist worklist operations).map id toList =
        session Operation.onQueue worklist.toList operations := by
  induction operations generalizing worklist with
  | nil => exact ⟨hworklist, rfl⟩
  | cons operation operations ih =>
      obtain ⟨hfaithful, hrest⟩ := ih (hworklist.onWorklist operation)
      have hfirst := hworklist.map_onWorklist operation
      refine ⟨hfaithful, ?_⟩
      rw [Worklist.session, Worklist.session, ← hfirst]
      exact congrArg (Prod.map (_ :: ·) id) hrest

end InStep

/-! ## Order of the nodes -/

/-- What an operation appends to a queue and what it takes off the queue balance. -/
theorem onQueue_balance (queue : List Nat) (operation : Operation) :
    queue ++ (operation.onQueue queue).1.appended =
      (operation.onQueue queue).1.taken ++ (operation.onQueue queue).2 := by
  cases operation with
  | push id =>
      by_cases hid : id ∈ queue <;> simp [Operation.onQueue, Exchange.appended, Exchange.taken, hid]
  | pop => cases queue <;> simp [Operation.onQueue, Exchange.appended, Exchange.taken]

/-- A session takes the nodes of the queue and then those it has appended, in order, up to the ones
that are left. -/
theorem session_balance (queue : List Nat) (operations : List Operation) :
    queue ++ (session Operation.onQueue queue operations).1.flatMap Exchange.appended =
      (session Operation.onQueue queue operations).1.flatMap Exchange.taken ++
        (session Operation.onQueue queue operations).2 := by
  induction operations generalizing queue with
  | nil => simp [session]
  | cons operation operations ih =>
      simp only [session, List.flatMap_cons]
      calc queue ++ ((operation.onQueue queue).1.appended ++ _)
          = (operation.onQueue queue).1.taken ++ ((operation.onQueue queue).2 ++ _) := by
            rw [← List.append_assoc, onQueue_balance, List.append_assoc]
        _ = _ := by rw [ih, List.append_assoc]

/-- Whatever is pushed to and popped from a new worklist in whatever order, the answers are those of a
plain list, and at the end the worklist shows exactly this list: set and queue hold the same nodes,
none of them twice, a push appends a node exactly if it is not queued, and a pop takes the first one.
In order, the nodes appended so far are the nodes taken so far followed by the queue, so that they
are taken in the order in which they were appended, and each at most once. -/
theorem sessions_refine_queue_without_duplicates (operations : List Operation) :
    (session Operation.onWorklist empty operations).1 =
        (session Operation.onQueue [] operations).1 ∧
      (session Operation.onWorklist empty operations).2.Shows
        (session Operation.onQueue [] operations).2 ∧
      (session Operation.onWorklist empty operations).1.flatMap Exchange.appended =
        (session Operation.onWorklist empty operations).1.flatMap Exchange.taken ++
          (session Operation.onWorklist empty operations).2.toList := by
  obtain ⟨hfaithful, hstep⟩ := faithful_empty.session operations
  have hexchanges := congrArg Prod.fst hstep
  have hqueue := congrArg Prod.snd hstep
  rw [Prod.map_fst, id, toList_empty] at hexchanges
  rw [Prod.map_snd, toList_empty] at hqueue
  refine ⟨hexchanges, hqueue ▸ hfaithful.shows, ?_⟩
  rw [hexchanges, hqueue]
  exact session_balance [] operations

/-- A node can be pushed again once it has been taken, and not before. -/
example :
    (session Operation.onWorklist empty
        [.push 3, .push 5, .push 3, .pop, .push 3, .pop, .pop, .pop]).1 =
      [.push 3 true, .push 5 true, .push 3 false, .pop (some 3), .push 3 true, .pop (some 5),
        .pop (some 3), .pop none] := by
  decide

end ValueRange.Worklist

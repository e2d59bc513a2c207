import Mathlib.Data.List.Nodup
import Mathlib.Data.List.Sort
import ValueRange.Program.Validation
import ValueRange.Proofs.Outcome

/-!
# Users of a definition

A body keeps a graph with an edge for each use in its arena, and the users of a definition are the
sorted targets of its edges. Every checked body has exact users: a position is listed as a user of a
definition if and only if its instruction has the definition among its operands. Everything else
about scheduling rests on this property and on the order of the lists, which ascend strictly.
-/

namespace ValueRange

/-! ## Operands -/

namespace Instruction

/-- The operands that an instruction reads, place by place. -/
inductive Reads : Instruction → Value → Prop
  | incoming {edges : List (Value × UInt64)} {value : Value} {label : UInt64}
      (hedge : (value, label) ∈ edges) : Reads (.phi edges) value
  | condition (cond thenValue elseValue : Value) : Reads (.select cond thenValue elseValue) cond
  | thenValue (cond thenValue elseValue : Value) :
      Reads (.select cond thenValue elseValue) thenValue
  | elseValue (cond thenValue elseValue : Value) :
      Reads (.select cond thenValue elseValue) elseValue
  | binaryLeft (opcode : BinaryOp) (lhs rhs : Value) : Reads (.binary opcode lhs rhs) lhs
  | binaryRight (opcode : BinaryOp) (lhs rhs : Value) : Reads (.binary opcode lhs rhs) rhs
  | compareLeft (predicate : Predicate) (lhs rhs : Value) :
      Reads (.compare predicate lhs rhs) lhs
  | compareRight (predicate : Predicate) (lhs rhs : Value) :
      Reads (.compare predicate lhs rhs) rhs
  | converted (opcode : CastOp) (operand : Value) : Reads (.cast opcode operand) operand
  | allocatedSize (ty : Ty) (size : Value) : Reads (.alloca ty (some size)) size
  | loadedFrom (ty : Ty) (pointer : Value) : Reads (.load ty pointer) pointer
  | storedTo (ty : Ty) (pointer value : Value) : Reads (.store ty pointer value) pointer
  | stored (ty : Ty) (pointer value : Value) : Reads (.store ty pointer value) value
  | callee (callee : Value) (args : List Value) : Reads (.call callee args) callee
  | passed {callee value : Value} {args : List Value} (hvalue : value ∈ args) :
      Reads (.call callee args) value
  | other {opcode : String} {operands : List Value} {value : Value} (hvalue : value ∈ operands) :
      Reads (.other opcode operands) value

theorem Reads.mem_operands {instruction : Instruction} {value : Value}
    (hreads : instruction.Reads value) : value ∈ instruction.operands := by
  cases hreads with
  | incoming hedge => exact List.mem_map.mpr ⟨_, hedge, rfl⟩
  | passed hvalue => exact List.mem_append_left _ hvalue
  | other hvalue => exact hvalue
  | _ => simp [operands]

/-- The list of operands leaves no place out and adds none. -/
theorem mem_operands_iff_reads {instruction : Instruction} {value : Value} :
    value ∈ instruction.operands ↔ instruction.Reads value := by
  refine ⟨fun hvalue => ?_, Reads.mem_operands⟩
  cases instruction with
  | phi edges =>
      obtain ⟨⟨_, label⟩, hedge, rfl⟩ := List.mem_map.mp hvalue
      exact .incoming hedge
  | select cond thenValue elseValue =>
      simp only [operands, List.mem_cons, List.not_mem_nil, or_false] at hvalue
      rcases hvalue with rfl | rfl | rfl
      · exact .condition value _ _
      · exact .thenValue _ value _
      · exact .elseValue _ _ value
  | binary opcode lhs rhs =>
      simp only [operands, List.mem_cons, List.not_mem_nil, or_false] at hvalue
      rcases hvalue with rfl | rfl
      · exact .binaryLeft opcode value _
      · exact .binaryRight opcode _ value
  | compare predicate lhs rhs =>
      simp only [operands, List.mem_cons, List.not_mem_nil, or_false] at hvalue
      rcases hvalue with rfl | rfl
      · exact .compareLeft predicate value _
      · exact .compareRight predicate _ value
  | cast opcode operand =>
      cases List.mem_singleton.mp hvalue
      exact .converted opcode value
  | alloca ty size =>
      cases Option.mem_toList.mp hvalue
      exact .allocatedSize ty value
  | load ty pointer =>
      cases List.mem_singleton.mp hvalue
      exact .loadedFrom ty value
  | store ty pointer stored =>
      simp only [operands, List.mem_cons, List.not_mem_nil, or_false] at hvalue
      rcases hvalue with rfl | rfl
      · exact .stored ty _ value
      · exact .storedTo ty value _
  | call callee args =>
      rcases List.mem_append.mp hvalue with hargs | hcallee
      · exact .passed hargs
      · cases List.mem_singleton.mp hcallee
        exact .callee value args
  | other opcode values => exact .other hvalue

theorem mem_registers_iff {instruction : Instruction} {id : Nat} :
    id ∈ instruction.registers ↔ ∃ ty, .register id ty ∈ instruction.operands := by
  refine List.mem_filterMap.trans ⟨?_, fun ⟨ty, hvalue⟩ => ⟨_, hvalue, rfl⟩⟩
  rintro ⟨value, hvalue, hid⟩
  cases value with
  | register id' ty =>
      cases hid
      exact ⟨ty, hvalue⟩
  | _ => cases hid

end Instruction

/-! ## Edges and their targets -/

namespace Digraph

variable {graph result : Digraph}

@[simp]
theorem order_empty (order : Nat) : (empty order).order = order := Array.size_replicate

@[simp]
theorem successors_empty (order source : Nat) : (empty order).successors source = [] := by
  simp only [successors, empty, Array.getElem?_replicate]
  split <;> rfl

theorem connect_eq_ok_iff {source target : Nat} :
    graph.connect source target = .ok result ↔
      (source < graph.order ∧ target < graph.order) ∧
        result = ⟨graph.targets.modify source (List.insert target)⟩ := by
  rw [connect, ← Nat.max_lt]
  split
  · rename_i hnodes
    rw [Except.ok.injEq, eq_comm, and_iff_right hnodes]
  · rename_i hnodes
    simp [hnodes]

theorem order_of_connect {source target : Nat} (hresult : graph.connect source target = .ok result) :
    result.order = graph.order := by
  obtain ⟨_, rfl⟩ := connect_eq_ok_iff.mp hresult
  exact Array.size_modify

/-- A new edge adds its target to those of its source. -/
theorem successors_of_connect {source target : Nat}
    (hresult : graph.connect source target = .ok result) (other : Nat) :
    result.successors other =
      if source = other then (graph.successors other).insert target else graph.successors other := by
  obtain ⟨⟨hsource, _⟩, rfl⟩ := connect_eq_ok_iff.mp hresult
  simp only [successors, Array.getElem?_modify]
  split
  · rename_i hother
    rw [← hother, Array.getElem?_eq_getElem hsource]
    rfl
  · rfl

theorem exists_foldlM_connect_iff {edges : List (Nat × Nat)} :
    (∃ result, edges.foldlM (fun graph edge => graph.connect edge.1 edge.2) graph = .ok result) ↔
      ∀ edge ∈ edges, edge.1 < graph.order ∧ edge.2 < graph.order := by
  induction edges generalizing graph with
  | nil => simp [pure, Except.pure]
  | cons edge edges ih =>
      rw [List.foldlM_cons, Outcome.exists_bind_eq_ok_iff, List.forall_mem_cons]
      constructor
      · rintro ⟨next, hnext, hrest⟩
        rw [ih, order_of_connect hnext] at hrest
        exact ⟨(connect_eq_ok_iff.mp hnext).1, hrest⟩
      · rintro ⟨hedge, hrest⟩
        have hnext := connect_eq_ok_iff.mpr ⟨hedge, rfl⟩
        refine ⟨_, hnext, ?_⟩
        rwa [ih, order_of_connect hnext]

/-- Edges may be added in any order and repeatedly: the targets of a node are those of the edges. -/
theorem mem_successors_of_foldlM {edges : List (Nat × Nat)} {source target : Nat}
    (hresult : edges.foldlM (fun graph edge => graph.connect edge.1 edge.2) graph = .ok result) :
    target ∈ result.successors source ↔
      target ∈ graph.successors source ∨ (source, target) ∈ edges := by
  induction edges generalizing graph with
  | nil =>
      cases Outcome.pure_eq_ok_iff.mp hresult
      simp
  | cons edge edges ih =>
      obtain ⟨next, hnext, hrest⟩ := Outcome.bind_eq_ok_iff.mp hresult
      have hedge : target ∈ next.successors source ↔
          (source, target) = edge ∨ target ∈ graph.successors source := by
        rw [successors_of_connect hnext]
        split
        · rename_i hsource
          rw [List.mem_insert_iff, Prod.ext_iff, and_iff_right hsource.symm]
        · rename_i hsource
          rw [Prod.ext_iff, iff_or_self]
          exact fun hsame => absurd hsame.1.symm hsource
      rw [ih hrest, hedge, List.mem_cons, or_right_comm, or_comm]

theorem nodup_successors_of_foldlM {edges : List (Nat × Nat)}
    (hresult : edges.foldlM (fun graph edge => graph.connect edge.1 edge.2) graph = .ok result)
    (hgraph : ∀ source, (graph.successors source).Nodup) (source : Nat) :
    (result.successors source).Nodup := by
  induction edges generalizing graph with
  | nil =>
      cases Outcome.pure_eq_ok_iff.mp hresult
      exact hgraph source
  | cons edge edges ih =>
      obtain ⟨next, hnext, hrest⟩ := Outcome.bind_eq_ok_iff.mp hresult
      refine ih hrest fun other => ?_
      rw [successors_of_connect hnext]
      split
      · exact (hgraph other).insert
      · exact hgraph other

/-- A list has the target of each edge from a node, and has it once, in whatever order. -/
structure Enumerates (edges : List (Nat × Nat)) (source : Nat) (targets : List Nat) : Prop where
  /-- There is one edge at most from a node to another. -/
  once : targets.Nodup
  /-- The targets are those of the edges. -/
  mem_iff : ∀ target, target ∈ targets ↔ (source, target) ∈ edges

variable {order : Nat} {edges : List (Nat × Nat)}

theorem exists_ofEdges_iff :
    (∃ graph, ofEdges order edges = .ok graph) ↔
      ∀ edge ∈ edges, edge.1 < order ∧ edge.2 < order := by
  have hiff := @exists_foldlM_connect_iff (empty order) edges
  rwa [order_empty] at hiff

/-- A graph has the edges it was made of. -/
theorem enumerates_of_ofEdges (hgraph : ofEdges order edges = .ok graph) (source : Nat) :
    Enumerates edges source (graph.successors source) where
  once := by
    refine nodup_successors_of_foldlM hgraph (fun other => ?_) source
    rw [successors_empty]
    exact List.nodup_nil
  mem_iff target := by
    rw [mem_successors_of_foldlM hgraph, successors_empty, or_iff_right List.not_mem_nil]

end Digraph

/-! ## Sorting -/

namespace Ascending

theorem insert_eq_orderedInsert (number : Nat) (numbers : List Nat) :
    insert number numbers = numbers.orderedInsert (· ≤ ·) number := by
  induction numbers with
  | nil => rfl
  | cons first rest ih => rw [insert, List.orderedInsert_cons, ih]

theorem sort_eq_insertionSort (numbers : List Nat) :
    sort numbers = numbers.reverse.insertionSort (· ≤ ·) := by
  simp only [sort, insert_eq_orderedInsert, List.foldl_eq_foldr_reverse]
  rfl

theorem perm_sort (numbers : List Nat) : (sort numbers).Perm numbers := by
  rw [sort_eq_insertionSort]
  exact (List.perm_insertionSort _ _).trans (List.reverse_perm numbers)

theorem pairwise_sort (numbers : List Nat) : (sort numbers).Pairwise (· ≤ ·) := by
  rw [sort_eq_insertionSort]
  exact List.pairwise_insertionSort _ _

/-- Different numbers ascend strictly once they are sorted. -/
theorem pairwise_lt_sort {numbers : List Nat} (hnodup : numbers.Nodup) :
    (sort numbers).Pairwise (· < ·) := by
  have hsorted := (pairwise_sort numbers).and ((perm_sort numbers).nodup_iff.mpr hnodup)
  exact hsorted.imp fun ⟨hle, hne⟩ => Nat.lt_of_le_of_ne hle hne

end Ascending

/-- Sorted targets depend on nothing but the edges: not on the order in which the edges are given,
not on the order in which the targets are. -/
theorem Digraph.Enumerates.sort_eq {edges others : List (Nat × Nat)} {source : Nat}
    {left right : List Nat} (hleft : Enumerates edges source left)
    (hright : Enumerates others source right) (hedges : ∀ edge, edge ∈ edges ↔ edge ∈ others) :
    Ascending.sort left = Ascending.sort right := by
  apply (Ascending.pairwise_lt_sort hleft.once).eq_of_mem_iff
    (Ascending.pairwise_lt_sort hright.once)
  intro target
  rw [(Ascending.perm_sort left).mem_iff, (Ascending.perm_sort right).mem_iff, hleft.mem_iff,
    hright.mem_iff, hedges]

/-! ## Users -/

namespace Body

theorem mem_useEdges {nodes : List Node} {definition user : Nat} :
    (definition, user) ∈ useEdges nodes ↔
      ∃ node, nodes[user]? = some node ∧ definition ∈ node.instruction.registers := by
  simp only [useEdges, List.mem_flatMap, List.mem_map, Prod.exists, Prod.mk.injEq,
    List.mem_zipIdx_iff_getElem?]
  constructor
  · rintro ⟨node, _, hnode, _, hregister, rfl, rfl⟩
    exact ⟨node, hnode, hregister⟩
  · rintro ⟨node, hnode, hregister⟩
    exact ⟨node, user, hnode, definition, hregister, rfl, rfl⟩

variable {blocks : List Block} {nodes : List Node} {body : Body}

theorem ofNodes_eq_ok_iff :
    ofNodes blocks nodes = .ok body ↔
      body.blocks = blocks ∧ body.nodes = nodes.toArray ∧
        Digraph.ofEdges nodes.length (useEdges nodes) = .ok body.uses := by
  simp only [ofNodes, Outcome.bind_eq_ok_iff, Outcome.pure_eq_ok_iff]
  constructor
  · rintro ⟨uses, huses, rfl⟩
    exact ⟨rfl, rfl, huses⟩
  · rintro ⟨rfl, hnodes, huses⟩
    exact ⟨body.uses, huses, by rw [← hnodes]⟩

/-- The uses are collected if every operand is a result of the arena. -/
theorem exists_ofNodes_iff :
    (∃ body, ofNodes blocks nodes = .ok body) ↔
      ∀ node ∈ nodes, ∀ definition ∈ node.instruction.registers, definition < nodes.length := by
  simp only [ofNodes, Outcome.exists_bind_eq_ok_iff, Outcome.pure_eq_ok_iff, exists_eq', and_true,
    Digraph.exists_ofEdges_iff]
  constructor
  · intro hedges node hnode definition hdefinition
    obtain ⟨user, huser⟩ := List.mem_iff_getElem?.mp hnode
    exact (hedges (definition, user) (mem_useEdges.mpr ⟨node, huser, hdefinition⟩)).1
  · rintro hregisters ⟨definition, user⟩ hedge
    obtain ⟨node, huser, hdefinition⟩ := mem_useEdges.mp hedge
    exact ⟨hregisters node (List.mem_of_getElem? huser) definition hdefinition,
      (List.getElem?_eq_some_iff.mp huser).1⟩

/-- A position is listed as a user of a definition exactly if its instruction refers to it. -/
def UsesExact (body : Body) : Prop :=
  ∀ definition user,
    user ∈ body.users definition ↔
      definition < body.nodes.size ∧
        ∃ node, body.node? user = some node ∧ definition ∈ node.instruction.registers

section Collected

variable (hbody : ofNodes blocks nodes = .ok body)

include hbody

theorem mem_users_of_ofNodes {definition user : Nat} :
    user ∈ body.users definition ↔
      ∃ node, body.node? user = some node ∧ definition ∈ node.instruction.registers := by
  obtain ⟨_, hnodes, huses⟩ := ofNodes_eq_ok_iff.mp hbody
  rw [users, (Ascending.perm_sort _).mem_iff,
    (Digraph.enumerates_of_ofEdges huses definition).mem_iff, mem_useEdges, node?, hnodes,
    List.getElem?_toArray]

theorem pairwise_users_of_ofNodes (definition : Nat) :
    (body.users definition).Pairwise (· < ·) := by
  obtain ⟨_, _, huses⟩ := ofNodes_eq_ok_iff.mp hbody
  exact Ascending.pairwise_lt_sort (Digraph.enumerates_of_ofEdges huses definition).once

theorem lt_size_of_mem_users {definition user : Nat} (huser : user ∈ body.users definition) :
    definition < body.nodes.size ∧ user < body.nodes.size := by
  have hregisters := exists_ofNodes_iff.mp ⟨body, hbody⟩
  obtain ⟨node, hnode, hdefinition⟩ := (mem_users_of_ofNodes hbody).mp huser
  obtain ⟨_, hnodes, _⟩ := ofNodes_eq_ok_iff.mp hbody
  rw [node?, hnodes, List.getElem?_toArray] at hnode
  rw [hnodes, List.size_toArray]
  exact ⟨hregisters node (List.mem_of_getElem? hnode) definition hdefinition,
    (List.getElem?_eq_some_iff.mp hnode).1⟩

theorem usesExact_of_ofNodes : body.UsesExact := by
  intro definition user
  rw [← mem_users_of_ofNodes hbody, iff_and_self]
  exact fun huser => (lt_size_of_mem_users hbody huser).1

/-- Edges may be given in another order and repeatedly, there is a graph with them. -/
theorem exists_ofEdges_of_mem_iff {edges : List (Nat × Nat)}
    (hedges : ∀ edge, edge ∈ edges ↔ edge ∈ useEdges nodes) :
    ∃ graph, Digraph.ofEdges nodes.length edges = .ok graph := by
  obtain ⟨_, _, huses⟩ := ofNodes_eq_ok_iff.mp hbody
  have hnodes := Digraph.exists_ofEdges_iff.mp ⟨_, huses⟩
  exact Digraph.exists_ofEdges_iff.mpr fun edge hedge => hnodes edge ((hedges edge).mp hedge)

/-- The users are found by sorting the targets of the uses, whichever graph enumerates them. -/
theorem sort_eq_users {edges : List (Nat × Nat)} {definition : Nat} {targets : List Nat}
    (hedges : ∀ edge, edge ∈ edges ↔ edge ∈ useEdges nodes)
    (htargets : Digraph.Enumerates edges definition targets) :
    Ascending.sort targets = body.users definition := by
  obtain ⟨_, _, huses⟩ := ofNodes_eq_ok_iff.mp hbody
  exact htargets.sort_eq (Digraph.enumerates_of_ofEdges huses definition) hedges

end Collected

theorem exists_ofNodes_of_ofDocument {params : List Ty} {ret : Ty} {document : List Document.Block}
    (hbody : Body.ofDocument params ret document = .ok body) :
    ∃ blocks nodes, ofNodes blocks nodes = .ok body := by
  simp only [Body.ofDocument] at hbody
  split at hbody
  · obtain ⟨definitions, _, hbody⟩ := Outcome.bind_eq_ok_iff.mp hbody
    obtain ⟨⟨blocks, nodes⟩, _, hbody⟩ := Outcome.bind_eq_ok_iff.mp hbody
    exact ⟨blocks, nodes, hbody⟩
  · exact absurd hbody Outcome.throw_ne_ok

end Body

theorem Function.exists_ofNodes_of_ofDocument {document : Document.Function} {function : Function}
    {body : Body} (hfunction : Function.ofDocument document = .ok function)
    (hbody : function.body = some body) :
    ∃ blocks nodes, Body.ofNodes blocks nodes = .ok body := by
  simp only [Function.ofDocument] at hfunction
  obtain ⟨params, _, hfunction⟩ := Outcome.bind_eq_ok_iff.mp hfunction
  obtain ⟨ret, _, hfunction⟩ := Outcome.bind_eq_ok_iff.mp hfunction
  split at hfunction
  · cases Outcome.pure_eq_ok_iff.mp hfunction
    cases hbody
  · obtain ⟨checked, hchecked, hfunction⟩ := Outcome.bind_eq_ok_iff.mp hfunction
    cases Outcome.pure_eq_ok_iff.mp hfunction
    cases hbody
    exact Body.exists_ofNodes_of_ofDocument hchecked

/-- The body of a checked function has exact users. -/
theorem Function.usesExact_of_ofDocument {document : Document.Function} {function : Function}
    {body : Body} (hfunction : Function.ofDocument document = .ok function)
    (hbody : function.body = some body) : body.UsesExact := by
  obtain ⟨blocks, nodes, hnodes⟩ := Function.exists_ofNodes_of_ofDocument hfunction hbody
  exact Body.usesExact_of_ofNodes hnodes

/-! ## Tracked users -/

namespace Body

/-- The users that the range analysis tracks. -/
def trackedUsers (body : Body) (id : Nat) : List Nat := (body.users id).filter body.tracked

/-- There is an instruction at the position of each user. -/
def KnowsUsers (body : Body) (id : Nat) : Prop :=
  ∀ user ∈ body.users id, ∃ node, body.node? user = some node

theorem UsesExact.knowsUsers {body : Body} (hexact : body.UsesExact) (id : Nat) :
    body.KnowsUsers id := by
  intro user huser
  obtain ⟨_, node, hnode, _⟩ := (hexact id user).mp huser
  exact ⟨node, hnode⟩

/-- The tracked users are found if every user is. -/
theorem findTrackedUsers_eq_ok_iff {body : Body} {id : Nat} {users : List Nat} :
    body.findTrackedUsers id = .ok users ↔
      body.KnowsUsers id ∧ users = body.trackedUsers id := by
  have hanswer : ∀ user ∈ body.users id, ∀ answer,
      (do let node ← body.node user; pure node.instruction.tracked : Except Fault Bool) =
        .ok answer → answer = body.tracked user := by
    intro user _ answer hanswer
    obtain ⟨node, hnode, hanswer⟩ := Outcome.bind_eq_ok_iff.mp hanswer
    rw [tracked, node_eq_ok_iff.mp hnode]
    exact (Outcome.pure_eq_ok_iff.mp hanswer).symm
  rw [findTrackedUsers, Outcome.filterM_eq_ok_iff hanswer]
  simp only [Outcome.exists_bind_eq_ok_iff, node_eq_ok_iff, Outcome.pure_eq_ok_iff, exists_eq',
    and_true]
  rfl

end Body

/-! ## The def-use graph -/

namespace Body

/-- The def-use graph of a checked body is exact: the users of a definition are the positions of the
arena whose instructions read its result in some place. They are listed in ascending order, so that
an instruction is listed once, however often it reads the result, and also if it reads its own. What
only a terminator reads has no user. The users do not depend on the graph: in whatever order and
however often the uses are added as edges, a graph keeps one edge for each of them, and whatever
enumerates the targets of a definition, sorting them gives its users. -/
theorem users_exact_and_ascending {params : List Ty} {ret : Ty} {blocks : List Document.Block}
    {body : Body} (hbody : Body.ofDocument params ret blocks = .ok body) :
    (∀ definition user, user ∈ body.users definition ↔
      ∃ node, body.node? user = some node ∧
        ∃ ty, .register definition ty ∈ node.instruction.operands) ∧
    (∀ definition, ∀ user ∈ body.users definition,
      definition < body.nodes.size ∧ user < body.nodes.size) ∧
    (∀ node ∈ body.nodes, ∀ value,
      value ∈ node.instruction.operands ↔ node.instruction.Reads value) ∧
    (∀ definition, (body.users definition).Pairwise (· < ·)) ∧
    (∀ definition, ∀ user ∈ body.users definition, (body.users definition).count user = 1) ∧
    ∀ edges, (∀ definition user, (definition, user) ∈ edges ↔
        ∃ node, body.node? user = some node ∧ definition ∈ node.instruction.registers) →
      (∃ graph, Digraph.ofEdges body.nodes.size edges = .ok graph ∧
        ∀ definition, Digraph.Enumerates edges definition (graph.successors definition)) ∧
      ∀ definition targets, Digraph.Enumerates edges definition targets →
        Ascending.sort targets = body.users definition := by
  obtain ⟨checked, nodes, hcollected⟩ := exists_ofNodes_of_ofDocument hbody
  obtain ⟨_, hnodes, _⟩ := ofNodes_eq_ok_iff.mp hcollected
  have hascends := pairwise_users_of_ofNodes hcollected
  refine ⟨?_, fun _ _ => lt_size_of_mem_users hcollected,
    fun _ _ _ => Instruction.mem_operands_iff_reads, hascends, ?_, ?_⟩
  · intro definition user
    simp only [← Instruction.mem_registers_iff]
    exact mem_users_of_ofNodes hcollected
  · intro definition user huser
    exact List.count_eq_one_of_mem (hascends definition).nodup huser
  · intro edges hedges
    have hsame : ∀ edge, edge ∈ edges ↔ edge ∈ useEdges nodes := by
      rintro ⟨definition, user⟩
      rw [hedges, mem_useEdges, node?, hnodes, List.getElem?_toArray]
    obtain ⟨graph, hgraph⟩ := exists_ofEdges_of_mem_iff hcollected hsame
    refine ⟨⟨graph, ?_, Digraph.enumerates_of_ofEdges hgraph⟩,
      fun _ _ => sort_eq_users hcollected hsame⟩
    rw [hnodes, List.size_toArray, hgraph]

open Document in
/-- Blocks in which the result `n` is read in many places: before its definition, twice by one
instruction and by itself. The last sum is read by the terminator only:
`p = alloca i32, n`, `c = icmp eq n, n`, `n = select c, n, m`, `m = call p(n, n)`, `store m, p` and
`z = add 0, 0`. -/
def sharedBlocks : List Document.Block :=
  let ty : TypeExpr := .int 32
  let zero : Operand := .constant ⟨ty, .int "0"⟩
  let p : Operand := .instruction .pointer 1
  let n : Operand := .instruction ty 3
  let m : Operand := .instruction ty 4
  [⟨0, none,
    [⟨.pointer, 1, some "p", .alloca ty (some n)⟩,
      ⟨.int 1, 2, some "c", .compare "eq" n n⟩,
      ⟨ty, 3, some "n", .select (.instruction (.int 1) 2) n m⟩,
      ⟨ty, 4, some "m", .call p [n, n]⟩,
      ⟨.void, 5, none, .store ty p m⟩,
      ⟨ty, 6, some "z", .binary "add" zero zero⟩],
    ⟨.void, 7, none, .ret (some (.instruction ty 6))⟩⟩]

/-- The checked body. -/
def sharedBody : Body :=
  let ty : Ty := .int 32
  let zero : Value := .constant (.int 32 0) ty
  let p : Value := .register 0 .pointer
  let n : Value := .register 2 ty
  let m : Value := .register 3 ty
  { blocks := [⟨0, none, [0, 1, 2, 3, 4, 5], .ret (some (.register 5 ty))⟩]
    nodes :=
      #[⟨1, some "p", .pointer, .alloca ty (some n)⟩,
        ⟨2, some "c", .bool, .compare .eq n n⟩,
        ⟨3, some "n", ty, .select (.register 1 .bool) n m⟩,
        ⟨4, some "m", ty, .call p [n, n]⟩,
        ⟨5, none, .void, .store ty p m⟩,
        ⟨6, some "z", ty, .binary .add zero zero⟩]
    uses := ⟨#[[4, 3], [2], [3, 2, 1, 0], [4, 2], [], []]⟩ }

/-- Each user of `n` is listed once, the callee and the stored value count, and `z` has no user. -/
theorem sharedBlocks_users :
    Body.ofDocument [] (.int 32) sharedBlocks = .ok sharedBody ∧
      (List.range 6).map sharedBody.users = [[3, 4], [2], [0, 1, 2, 3], [2, 4], [], []] ∧
      (sharedBody.users 2).Pairwise (· < ·) ∧ (sharedBody.users 2).count 3 = 1 ∧
      ∀ node, sharedBody.node? 4 = some node →
        ∃ ty, .register 0 ty ∈ node.instruction.operands ∧
          node.instruction.Reads (.register 0 ty) := by
  have hbody : Body.ofDocument [] (.int 32) sharedBlocks = .ok sharedBody := rfl
  obtain ⟨hexact, _, hreads, hascends, honce, _⟩ := users_exact_and_ascending hbody
  refine ⟨hbody, rfl, hascends 2, honce 2 3 (by decide), fun node hnode => ?_⟩
  obtain ⟨node', hnode', ty, hoperand⟩ := (hexact 0 4).mp (by decide)
  cases hnode.symm.trans hnode'
  exact ⟨ty, hoperand, (hreads node (Array.mem_of_getElem? hnode) _).mp hoperand⟩

end Body

end ValueRange

import ValueRange.Fault

/-!
# Directed graphs

Directed graphs on the numbers below a bound, without weights. From a node to another there is at
most one edge, however often it is added. The targets of the edges from a node come in no order that
a reader may rely on; who needs one sorts them.
-/

namespace ValueRange

/-- A directed graph. -/
structure Digraph where
  /-- For each node, the targets of the edges from it. -/
  targets : Array (List Nat)

namespace Digraph

/-- Number of nodes. -/
def order (graph : Digraph) : Nat := graph.targets.size

/-- Nodes without an edge between them. -/
def empty (order : Nat) : Digraph := ⟨Array.replicate order []⟩

/-- The graph with an edge between two of its nodes, which may be there already. -/
def connect (graph : Digraph) (source target : Nat) : Except Fault Digraph :=
  if max source target < graph.order then
    .ok ⟨graph.targets.modify source (List.insert target)⟩
  else
    .error (.unknownNode (max source target))

/-- The graph with the given edges, each from a source to a target. -/
def ofEdges (order : Nat) (edges : List (Nat × Nat)) : Except Fault Digraph :=
  edges.foldlM (fun graph edge => graph.connect edge.1 edge.2) (empty order)

/-- The targets of the edges from a node. -/
def successors (graph : Digraph) (source : Nat) : List Nat := graph.targets[source]?.getD []

end Digraph

namespace Ascending

/-- Put a number in its place in an ascending list. -/
def insert (number : Nat) : List Nat → List Nat
  | [] => [number]
  | first :: rest =>
    if number ≤ first then number :: first :: rest else first :: insert number rest

/-- The numbers of a list in ascending order. -/
def sort (numbers : List Nat) : List Nat :=
  numbers.foldl (fun sorted number => insert number sorted) []

end Ascending

end ValueRange

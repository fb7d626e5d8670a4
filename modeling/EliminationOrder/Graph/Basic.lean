/-
The elimination graph of a symmetric sparsity pattern.

Nodes are numbers below the size. A node is active, with a list of the nodes it is
joined to, or eliminated, with nothing. Eliminating a node joins its neighbors to each
other and takes it out; the edges this creates are the fill that a factorization picks
up at that pivot.

`Valid` is the invariant: the count of active nodes agrees with the nodes, and the
lists are free of loops and repetitions and symmetric, so active nodes only ever name
active nodes. It is decidable, and a graph is checked against it when it is built.

The graph carries a marker as scratch space. Every use of it starts a new generation,
so what earlier uses left behind never shows in an answer.
-/
import EliminationOrder.Marker

namespace EliminationOrder

/-- A node of an elimination graph. -/
inductive Node
  /-- Still in the graph, joined to the nodes of the list. -/
  | active (neighbors : List Nat)
  | eliminated

namespace Node

/-- The nodes it is joined to: none for a node that is gone. -/
def neighbors : Node → List Nat
  | active ns => ns
  | eliminated => []

/-- Whether it is still in the graph. -/
def isActive : Node → Bool
  | active _ => true
  | eliminated => false

end Node

/-- A graph whose nodes are eliminated one at a time. -/
structure EliminationGraph where
  nodes : Array Node
  /-- How many nodes have not been eliminated. -/
  nactive : Nat
  /-- Scratch marks, one per node. -/
  marker : Marker

namespace EliminationGraph

/-- The number of nodes, eliminated ones included. -/
def nnodes (g : EliminationGraph) : Nat :=
  g.nodes.size

/-- The nodes that `i` is joined to: none where there is no node `i`. -/
def adjacent (g : EliminationGraph) (i : Nat) : List Nat :=
  match g.nodes[i]? with
  | some node => node.neighbors
  | none => []

/-- Whether `i` is a node that has not been eliminated. -/
def isActive (g : EliminationGraph) (i : Nat) : Bool :=
  match g.nodes[i]? with
  | some node => node.isActive
  | none => false

/-- The nodes that have not been eliminated, in ascending order. -/
def activeNodes (g : EliminationGraph) : List Nat :=
  (List.range g.nnodes).filter g.isActive

/-! ### The invariant -/

/-- The lists describe an undirected graph without loops, and the count is right. -/
structure Valid (g : EliminationGraph) : Prop where
  /-- The count is that of the active nodes. -/
  counted : g.nodes.countP Node.isActive = g.nactive
  /-- No node is joined to itself. -/
  loopless : ∀ i < g.nnodes, i ∉ g.adjacent i
  /-- No node is listed twice. -/
  nodup : ∀ i < g.nnodes, (g.adjacent i).Nodup
  /-- Each edge is listed at both ends, so no list names a node that is gone. -/
  symm : ∀ i < g.nnodes, ∀ j ∈ g.adjacent i, i ∈ g.adjacent j

instance (g : EliminationGraph) : Decidable g.Valid :=
  decidable_of_iff
    (g.nodes.countP Node.isActive = g.nactive ∧ (∀ i < g.nnodes, i ∉ g.adjacent i) ∧
      (∀ i < g.nnodes, (g.adjacent i).Nodup) ∧
      ∀ i < g.nnodes, ∀ j ∈ g.adjacent i, i ∈ g.adjacent j)
    ⟨fun ⟨hc, hl, hn, hs⟩ => ⟨hc, hl, hn, hs⟩, fun h => ⟨h.counted, h.loopless, h.nodup, h.symm⟩⟩

/-- Faults where the invariant does not hold. -/
def check (g : EliminationGraph) : Outcome Unit :=
  if g.Valid then .ok () else .error (.fault .invariantBroken)

/-! ### Construction -/

/--
The graph with the given lists, after repeated entries are dropped from each. The lists
have to be symmetric and free of loops.
-/
def ofLists (lists : List (List Nat)) : Outcome EliminationGraph := do
  let (lists, marker) ← (Marker.fresh lists.length).dedupAll lists
  let g : EliminationGraph :=
    { nodes := (lists.map Node.active).toArray, nactive := lists.length, marker }
  g.check
  return g

/-- The end of an edge across from `i`: none if the edge is a loop or does not touch `i`. -/
def across (i : Nat) (edge : Nat × Nat) : Option Nat :=
  if edge.1 = edge.2 then none
  else if edge.1 = i then some edge.2
  else if edge.2 = i then some edge.1
  else none

/--
The graph on `n` nodes with the given edges, in either orientation. Loops are dropped
and repeated edges merged; every end has to be a node.
-/
def ofEdges (n : Nat) (edges : List (Nat × Nat)) : Outcome EliminationGraph :=
  match edges.find? fun (i, j) => !(i < n && j < n) with
  | some (i, j) => .error (.outOfRange (max i j) n)
  | none => ofLists ((List.range n).map fun i => edges.filterMap (across i))

/-! ### Looking at one node -/

/-- The nodes that `i` is joined to, in stored order. -/
def neighbors (g : EliminationGraph) (i : Nat) : Outcome (List Nat) :=
  match g.nodes[i]? with
  | some node => .ok node.neighbors
  | none => .error (.outOfRange i g.nnodes)

/-- The number of nodes that `i` is joined to. -/
def degree (g : EliminationGraph) (i : Nat) : Outcome Nat := do
  let ns ← g.neighbors i
  return ns.length

/-- Whether `i` has left the graph. -/
def isEliminated (g : EliminationGraph) (i : Nat) : Outcome Bool :=
  match g.nodes[i]? with
  | some node => .ok !node.isActive
  | none => .error (.outOfRange i g.nnodes)

/-- The neighbors of a node that has to be active. -/
def activeNeighbors (g : EliminationGraph) (i : Nat) : Outcome (List Nat) :=
  match g.nodes[i]? with
  | some (.active ns) => .ok ns
  | some .eliminated => .error (.fault (.nodeGone i))
  | none => .error (.outOfRange i g.nnodes)

end EliminationGraph

end EliminationOrder

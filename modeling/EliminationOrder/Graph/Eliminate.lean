/-
Eliminating a node, and predicting what that would cost.

When `n` leaves, each of its neighbors keeps its own list without `n` and gains the
other neighbors of `n` that it did not have, at the end and in the order of `n`'s list.
A new edge is gained at both of its ends, so the edges created are half of the entries
gained. The prediction counts the same edges on the unchanged graph, as pairs of
neighbors that are not joined, each pair once.
-/
import EliminationOrder.Graph.Basic

namespace EliminationOrder.EliminationGraph

/-! ### Elimination -/

/--
Takes `n` out of the list of its neighbor `m` and joins `m` to the rest of `n`'s
neighbors `ns`. Gives the number of entries that `m` gained.
-/
def inherit (g : EliminationGraph) (n : Nat) (ns : List Nat) (m : Nat) :
    Outcome (Nat × EliminationGraph) := do
  let ms ← g.activeNeighbors m
  let kept := ms.filter (· != n)
  let marker ← g.marker.advance.markAll kept
  let (gained, marker) ← marker.claim (ns.filter (· != m))
  return (gained.length,
    { g with nodes := g.nodes.setIfInBounds m (.active (kept ++ gained)), marker })

/-- Lets every node of a list inherit from `n`, one after the other. -/
def inheritAll (g : EliminationGraph) (n : Nat) (ns : List Nat) :
    List Nat → Outcome (Nat × EliminationGraph)
  | [] => .ok (0, g)
  | m :: ms => do
    let (gained, g) ← g.inherit n ns m
    let (more, g) ← g.inheritAll n ns ms
    return (gained + more, g)

/-- Takes the node `n` out of the graph. -/
def retire (g : EliminationGraph) (n : Nat) : Outcome EliminationGraph :=
  match g.nactive with
  | 0 => .error (.fault .countBelowZero)
  | k + 1 => .ok { g with nodes := g.nodes.setIfInBounds n .eliminated, nactive := k }

/--
Eliminates `n`: its neighbors become joined to each other and it leaves the graph.
Gives the number of edges this created.
-/
def eliminate (g : EliminationGraph) (n : Nat) : Outcome (Nat × EliminationGraph) := do
  let ns ← g.activeNeighbors n
  let (gained, g) ← g.inheritAll n ns ns
  let g ← g.retire n
  return (gained / 2, g)

/-- Eliminates the nodes of a list in order, and gives the number of edges created in all. -/
def eliminateAll (g : EliminationGraph) : List Nat → Outcome (Nat × EliminationGraph)
  | [] => .ok (0, g)
  | n :: ns => do
    let (added, g) ← g.eliminate n
    let (more, g) ← g.eliminateAll ns
    return (added + more, g)

/-! ### Prediction -/

/-- The pairs of entries of a list that are not joined, counted at the earlier entry. -/
def countUnjoined (g : EliminationGraph) : List Nat → Outcome (Nat × EliminationGraph)
  | [] => .ok (0, g)
  | a :: later => do
    let joined ← g.neighbors a
    let marker ← g.marker.advance.markAll joined
    let missing ← marker.unmarked later
    let (more, g) ← { g with marker }.countUnjoined later
    return (missing.length + more, g)

/--
The number of edges that eliminating `n` would create now. Nodes and count stay as they
are; only scratch marks are written.
-/
def predictFill (g : EliminationGraph) (n : Nat) : Outcome (Nat × EliminationGraph) := do
  let ns ← g.activeNeighbors n
  g.countUnjoined ns

end EliminationOrder.EliminationGraph

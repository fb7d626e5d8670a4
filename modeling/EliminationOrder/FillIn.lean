/-
The fill of a given order.

An order is worth what eliminating its nodes in turn creates. The request is checked as
a whole first: a graph that has lost a node, and then a list that is no order of its
nodes, are refused with the graph untouched.
-/
import EliminationOrder.Graph.Eliminate
import EliminationOrder.Matrix.Stored
import EliminationOrder.Permutation

namespace EliminationOrder

/-- Eliminates every node in the order `p` and counts the edges created. -/
def EliminationGraph.fillIn (g : EliminationGraph) (p : List Nat) : Outcome (Nat × EliminationGraph) :=
  if g.nactive ≠ g.nnodes then
    .error (.refused (.alreadyEliminated (g.nnodes - g.nactive) g.nnodes))
  else if !Permutation.isPermutation p g.nnodes then
    .error (.refused (.notPermutation g.nnodes))
  else
    g.eliminateAll p

/-- The number of new nonzeros when the variables of a matrix are eliminated in the order `p`. -/
def fillIn {α : Type} [Entry α] (a : StoredMatrix α) (p : List Nat) : Outcome Nat := do
  let g ← EliminationGraph.ofMatrix a
  let (fill, _) ← g.fillIn p
  return fill

end EliminationOrder

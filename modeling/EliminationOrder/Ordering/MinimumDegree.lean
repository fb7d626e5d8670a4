/-
The minimum degree rule: eliminate the active node with the fewest neighbors, the
lowest-numbered of several, until no node is left.
-/
import EliminationOrder.Graph.Eliminate

namespace EliminationOrder.MinimumDegree

/-- The active node with the fewest neighbors, the lowest of several. -/
def pick? (g : EliminationGraph) : Option Nat :=
  g.activeNodes.minOn? fun i => (g.adjacent i).length

/--
Rounds of the rule until the count of active nodes is zero; a fault if that takes more
than the given number. A round that finds no node changes nothing.
-/
def run : Nat → EliminationGraph → Outcome (List Nat × EliminationGraph)
  | 0, g => if g.nactive = 0 then .ok ([], g) else .error (.fault .unfinished)
  | rounds + 1, g =>
    if g.nactive = 0 then .ok ([], g)
    else
      match pick? g with
      | none => run rounds g
      | some n => do
        let (_, g) ← g.eliminate n
        let (p, g) ← run rounds g
        return (n :: p, g)

/-- Eliminates every active node by the rule: the nodes in the order in which they go. -/
def order (g : EliminationGraph) : Outcome (List Nat × EliminationGraph) :=
  run g.nactive g

end EliminationOrder.MinimumDegree

/-
The minimum fill rule: eliminate the active node that creates the fewest edges, the
lowest-numbered of several, until no node is left.

Predicting the fill of a node looks at all pairs of its neighbors, so predictions are
kept from one elimination to the next. Eliminating a node can only change the
predictions of its neighbors and of the nodes these are joined to afterwards; those are
dropped, and made again before the next choice. What an elimination creates is checked
against its prediction.
-/
import EliminationOrder.Graph.Eliminate

namespace EliminationOrder.MinimumFill

/-- Predicted fill by node; `none` where a prediction has to be made again. -/
abbrev Predictions : Type :=
  Array (Option Nat)

/-- Predicts the fill of those listed nodes that are active and have no prediction. -/
def refresh (g : EliminationGraph) (costs : Predictions) :
    List Nat → Outcome (Predictions × EliminationGraph)
  | [] => .ok (costs, g)
  | i :: is => do
    if g.isActive i && (costs[i]?.getD none).isNone then
      let (cost, g) ← g.predictFill i
      refresh g (costs.setIfInBounds i (some cost)) is
    else
      refresh g costs is

/-- The active node with the least prediction, the lowest of several, and its prediction. -/
def pick? (g : EliminationGraph) (costs : Predictions) : Option (Nat × Nat) :=
  let predicted := g.activeNodes.filterMap fun i => (costs[i]?.getD none).map fun cost => (i, cost)
  predicted.minOn? Prod.snd

/-- Drops the predictions of the listed nodes. -/
def forget (costs : Predictions) : List Nat → Outcome Predictions
  | [] => .ok costs
  | i :: is =>
    if i < costs.size then forget (costs.setIfInBounds i none) is
    else .error (.outOfRange i costs.size)

/-- Drops the predictions of the listed nodes and of everything they are joined to. -/
def forgetAround (g : EliminationGraph) (costs : Predictions) : List Nat → Outcome Predictions
  | [] => .ok costs
  | m :: ms => do
    let costs ← forget costs (m :: g.adjacent m)
    forgetAround g costs ms

/-- Faults where an elimination created another number of edges than predicted. -/
def compare (created predicted : Nat) : Outcome Unit :=
  if created = predicted then .ok () else .error (.fault (.mispredicted created predicted))

/-- One elimination by the rule: the node, the graph without it and what is still predicted. -/
def round (g : EliminationGraph) (costs : Predictions) :
    Outcome (Option (Nat × EliminationGraph × Predictions)) := do
  let (costs, g) ← refresh g costs (List.range g.nnodes)
  match pick? g costs with
  | none => return none
  | some (n, predicted) =>
    let ns := g.adjacent n
    let (created, g) ← g.eliminate n
    compare created predicted
    let costs ← forgetAround g costs ns
    return some (n, g, costs)

/--
Rounds until the count of active nodes is zero, or until a round finds no node; a fault
if that takes more than the given number.
-/
def run : Nat → EliminationGraph → Predictions → Outcome (List Nat × EliminationGraph)
  | 0, g, _ => if g.nactive = 0 then .ok ([], g) else .error (.fault .unfinished)
  | rounds + 1, g, costs =>
    if g.nactive = 0 then .ok ([], g)
    else do
      match ← round g costs with
      | none => return ([], g)
      | some (n, g, costs) =>
        let (p, g) ← run rounds g costs
        return (n :: p, g)

/-- Eliminates every active node by the rule: the nodes in the order in which they go. -/
def order (g : EliminationGraph) : Outcome (List Nat × EliminationGraph) :=
  run g.nactive g (Array.replicate g.nnodes none)

end EliminationOrder.MinimumFill

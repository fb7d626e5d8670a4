/-
Requests to an elimination graph, and their answers.

A session is a graph and a marker for searches in it, which all searches of the session
share.
-/
import EliminationOrder.Ordering.Appraisal
import EliminationOrder.Script

namespace EliminationOrder

/-- The neighbors of all nodes. -/
def EliminationGraph.lists (g : EliminationGraph) : List (List Nat) :=
  (List.range g.nnodes).map g.adjacent

/-- A graph and the marker of the searches in it. -/
structure GraphSession where
  graph : EliminationGraph
  search : Marker

namespace GraphSession

/-- The session that begins with a graph. -/
def start (graph : EliminationGraph) : GraphSession :=
  ⟨graph, Marker.fresh graph.nnodes⟩

/-- What can be asked of a graph. -/
inductive Request
  | eliminate (n : Nat)
  | predictFill (n : Nat)
  | degree (n : Nat)
  | neighbors (n : Nat)
  | isEliminated (n : Nat)
  /-- The neighbors of all nodes. -/
  | lists
  | check
  /-- Eliminates all active nodes by the minimum degree rule. -/
  | minimumDegree
  /-- Eliminates all active nodes by the minimum fill rule. -/
  | minimumFill
  | hopOrder (decay : Option Float) (maxHops : Option Nat)
  | histogram (start : Nat) (decay : Option Float) (maxHops : Option Nat)
  | fillIn (p : List Nat)

/-- What a graph answers. -/
inductive Answer
  | count (n : Nat)
  | nodes (ns : List Nat)
  | flag (holds : Bool)
  | lists (ls : List (List Nat))
  | done
  | histogram (sizes : List Nat) (score : Float)

/-- Carries out one request. -/
def step (s : GraphSession) : Request → Outcome (Answer × GraphSession)
  | .eliminate n => do
    let (added, graph) ← s.graph.eliminate n
    return (.count added, { s with graph })
  | .predictFill n => do
    let (added, graph) ← s.graph.predictFill n
    return (.count added, { s with graph })
  | .degree n => do
    let d ← s.graph.degree n
    return (.count d, s)
  | .neighbors n => do
    let ns ← s.graph.neighbors n
    return (.nodes ns, s)
  | .isEliminated n => do
    let gone ← s.graph.isEliminated n
    return (.flag gone, s)
  | .lists => .ok (.lists s.graph.lists, s)
  | .check => do
    s.graph.check
    return (.done, s)
  | .minimumDegree => do
    let (p, graph) ← MinimumDegree.order s.graph
    return (.nodes p, { s with graph })
  | .minimumFill => do
    let (p, graph) ← MinimumFill.order s.graph
    return (.nodes p, { s with graph })
  | .hopOrder decay maxHops => do
    let k ← HopDegree.ofParameters decay maxHops
    let p ← k.order s.graph
    return (.nodes p, s)
  | .histogram n decay maxHops => do
    let k ← HopDegree.ofParameters decay maxHops
    let (sizes, search) ← k.histogram s.graph n s.search
    return (.histogram sizes (k.score sizes), { s with search })
  | .fillIn p => do
    let (fill, graph) ← s.graph.fillIn p
    return (.count fill, { s with graph })

/-- For each request of a list, its answer and the graph after it. -/
def run (s : GraphSession) (requests : List Request) : List (Outcome Answer × EliminationGraph) :=
  (Script.trace step s requests).map fun (answer, s) => (answer, s.graph)

end GraphSession

end EliminationOrder

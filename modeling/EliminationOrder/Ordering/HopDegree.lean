/-
An ordering from the distances in the graph.

For each node, its histogram counts the nodes at distance zero, one, two and so on. The
reach weights the count at distance `d` by the decay to the power `d - 1`, the lever
weights it by `d`, and nodes go by ascending quotient of reach and lever, the lower
number first where quotients are equal. Nodes at the rim of the graph have a long lever
and a small reach, so they go first.
-/
import EliminationOrder.Graph.Basic
import EliminationOrder.Sorting

namespace EliminationOrder

/-- The parameters of a hop ordering. -/
structure HopDegree where
  /-- The weight of one more hop. -/
  decay : Float
  /-- How many hops are looked at, if not all. -/
  maxHops : Option Nat
  decay_pos : 0 < decay
  decay_lt_one : decay < 1

namespace HopDegree

/-- A decay of one half and no bound on hops. -/
def standard : HopDegree :=
  ⟨0.5, none, by decide, by decide⟩

/-- The ordering with the given decay, which has to lie strictly between zero and one. -/
def ofDecay (decay : Float) : Outcome HopDegree :=
  if h : 0 < decay ∧ decay < 1 then .ok ⟨decay, none, h.1, h.2⟩
  else .error (.refused (.decayOutOfRange decay))

/-- The same decay, with at most `hops` hops looked at. -/
def withMaxHops (k : HopDegree) (hops : Nat) : HopDegree :=
  { k with maxHops := some hops }

/-! ### Histograms -/

/-- The neighbors of all nodes of a list, joined to one list. -/
def neighborsOf (g : EliminationGraph) : List Nat → Outcome (List Nat)
  | [] => .ok []
  | u :: us => do
    let vs ← g.neighbors u
    let rest ← neighborsOf g us
    return vs ++ rest

/--
The sizes of the levels beyond `frontier`, at most `rounds` of them: each holds the
neighbors of the one before that are not marked yet, and is marked in turn.
-/
def levels (g : EliminationGraph) : Nat → Marker → List Nat → Outcome (List Nat × Marker)
  | 0, m, _ => .ok ([], m)
  | rounds + 1, m, frontier => do
    let reached ← neighborsOf g frontier
    let (next, m) ← m.claim reached
    if next.isEmpty then
      return ([], m)
    else
      let (sizes, m) ← levels g rounds m next
      return (next.length :: sizes, m)

/-- No more levels than this are looked at: there are no more than nodes, and the bound cuts them off. -/
def rounds (k : HopDegree) (g : EliminationGraph) : Nat :=
  match k.maxHops with
  | some hops => min hops g.nnodes
  | none => g.nnodes

/-- The number of nodes at each distance from `start`, beginning with the start itself. -/
def histogram (k : HopDegree) (g : EliminationGraph) (start : Nat) (m : Marker) :
    Outcome (List Nat × Marker) := do
  let m ← m.advance.mark start
  let (sizes, m) ← levels g (k.rounds g) m [start]
  return (1 :: sizes, m)

/-! ### Scores -/

/-- The sums that make up a score, and the weight of the next distance. -/
structure Sums where
  reach : Float
  lever : Float
  weight : Float

/-- Adds the counts at the distances from `d` on. -/
def addCounts (decay : Float) : Nat → Sums → List Nat → Sums
  | _, sums, [] => sums
  | d, sums, h :: hs =>
    addCounts decay (d + 1)
      { reach := sums.reach + sums.weight * Float.ofNat h
        lever := sums.lever + Float.ofNat d * Float.ofNat h
        weight := sums.weight * decay } hs

/-- The quotient of decayed reach and lever; zero for a node that reaches nothing. -/
def score (k : HopDegree) (hist : List Nat) : Float :=
  let sums := addCounts k.decay 1 ⟨0, 0, 1⟩ (hist.drop 1)
  if 0 < sums.lever then sums.reach / sums.lever else 0

/--
The place of a number in the total order of floating-point numbers: by value, negative
zero before zero, and a NaN beyond the infinity of its sign.
-/
def rank (x : Float) : Int :=
  let bits := x.toBits.toNat
  let half := UInt64.size / 2
  if bits < half then Int.ofNat bits else Int.ofNat half - 1 - Int.ofNat bits

/-! ### The order -/

/-- The scores of the listed nodes, from searches that share one marker. -/
def scores (k : HopDegree) (g : EliminationGraph) : Marker → List Nat → Outcome (List (Int × Nat))
  | _, [] => .ok []
  | m, i :: is => do
    let (hist, m) ← k.histogram g i m
    let rest ← k.scores g m is
    return (rank (k.score hist), i) :: rest

/-- Whether one scored node goes before another: by score, then by number. -/
def goesBefore (a b : Int × Nat) : Bool :=
  a.1 < b.1 || (a.1 == b.1 && a.2 ≤ b.2)

/-- All nodes, eliminated ones included, by ascending score. -/
def order (k : HopDegree) (g : EliminationGraph) : Outcome (List Nat) := do
  let scored ← k.scores g (Marker.fresh g.nnodes) (List.range g.nnodes)
  return (sortList goesBefore scored).map Prod.snd

end HopDegree

end EliminationOrder

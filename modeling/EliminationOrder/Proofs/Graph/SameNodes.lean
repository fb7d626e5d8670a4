/-
Graphs that differ only in their scratch marks.

`SameNodes` is `Alike` with the lists in the same order as well, so it leaves nothing of a
graph open but the marker, and of that only that it can be trusted.  Calls on two such
graphs end together, with one answer and equal nodes, or with one failure.  This is said
with `Script.EndTogether`, since requests to a session relate more than graphs.

That the answers are equal is known from `EndAlike`.  What is left to see is that the lists
come out in one order, and for that it is enough to know what each call makes of the lists.
-/
import EliminationOrder.Proofs.Script
import EliminationOrder.Proofs.Ordering.SamePattern

namespace EliminationOrder

namespace EliminationGraph

variable {g h g' h' : EliminationGraph} {n : Nat}

/-- Two sound graphs with equal nodes and whatever marks. -/
structure SameNodes (g h : EliminationGraph) : Prop extends Alike g h where
  adjacent : g.adjacent = h.adjacent

theorem Sound.sameNodes (hg : g.Sound) : SameNodes g g where
  left := hg
  right := hg
  nnodes := rfl
  isActive := rfl
  mem_iff _ _ := Iff.rfl
  adjacent := rfl

namespace SameNodes

variable (hgh : SameNodes g h)

include hgh

/-- A node is active with its list or gone, so nothing else can differ. -/
theorem nodes : g.nodes = h.nodes := by
  refine Array.ext hgh.nnodes fun i hg hh => ?_
  have hactive := congrFun hgh.isActive i
  have hadj := congrFun hgh.adjacent i
  simp only [EliminationGraph.isActive, EliminationGraph.adjacent, Array.getElem?_eq_getElem hg,
    Array.getElem?_eq_getElem hh] at hactive hadj
  cases hu : g.nodes[i] <;> cases hv : h.nodes[i] <;>
    simp_all [Node.isActive, Node.neighbors]

/-- **Eliminating a node keeps the nodes equal.** -/
theorem eliminated (hg : Eliminated g n g') (hh : Eliminated h n h') : SameNodes g' h' :=
  ⟨hgh.toAlike.eliminated hg hh, (hg.congr hh hgh.adjacent hgh.isActive).1⟩

/-- Other marks make no difference. -/
theorem withMarker {m m' : Marker} (hm : Marker.Ready g.nnodes m)
    (hm' : Marker.Ready h.nnodes m') : SameNodes (g.withMarker m) (h.withMarker m') :=
  ⟨hgh.toAlike.withMarker hm hm', hgh.adjacent⟩

theorem neighbors (i : Nat) : g.neighbors i = h.neighbors i := by
  unfold EliminationGraph.neighbors EliminationGraph.nnodes
  rw [hgh.nodes]

theorem isEliminated (i : Nat) : g.isEliminated i = h.isEliminated i := by
  unfold EliminationGraph.isEliminated EliminationGraph.nnodes
  rw [hgh.nodes]

theorem check : g.check = h.check := by
  unfold EliminationGraph.check
  rw [if_pos hgh.left.valid, if_pos hgh.right.valid]

end SameNodes

/-! ### Calls -/

/-- Calls that end alike end with equal nodes if the lists come out in the same order. -/
theorem EndAlike.endTogether {α : Type} {x y : Outcome (α × EliminationGraph)} (hxy : EndAlike x y)
    (hadj : ∀ a g' h', x = .ok (a, g') → y = .ok (a, h') → g'.adjacent = h'.adjacent) :
    Script.EndTogether SameNodes x y := by
  cases hxy with
  | ok a hgh => exact Script.EndTogether.ok a ⟨hgh, hadj a _ _ rfl rfl⟩
  | error e => exact Script.EndTogether.error e

/-- A greedy rule leaves no node active, so there is no list to differ. -/
theorem Follows.endTogether {cost : (Nat → List Nat) → Nat → Nat}
    {order : EliminationGraph → Outcome (List Nat × EliminationGraph)} (hrule : Follows cost order)
    (hcost : Unordered cost) (hgh : SameNodes g h) :
    Script.EndTogether SameNodes (order g) (order h) := by
  refine (hrule.endAlike hcost hgh.toAlike).endTogether fun p g' h' hg hh => ?_
  obtain ⟨_, _, hg', hrun⟩ := hrule g hgh.left
  obtain ⟨_, _, hh', hrun'⟩ := hrule h hgh.right
  obtain ⟨-, rfl⟩ := Outcome.ok_pair_inj.mp (hg.symm.trans hg')
  obtain ⟨-, rfl⟩ := Outcome.ok_pair_inj.mp (hh.symm.trans hh')
  funext i
  rw [adjacent_eq_nil (hrun.isActive_eq_false i), adjacent_eq_nil (hrun'.isActive_eq_false i)]

namespace SameNodes

variable (hgh : SameNodes g h)

include hgh

theorem eliminate (n : Nat) : Script.EndTogether SameNodes (g.eliminate n) (h.eliminate n) := by
  refine (hgh.toAlike.eliminate n).endTogether fun k g' h' hg hh => ?_
  have hstep := (eliminated_of_eliminate hgh.left hg).2
  have hstep' := (eliminated_of_eliminate hgh.right hh).2
  exact (hgh.eliminated hstep hstep').adjacent

theorem predictFill (n : Nat) :
    Script.EndTogether SameNodes (g.predictFill n) (h.predictFill n) := by
  refine (hgh.toAlike.predictFill n).endTogether fun k g' h' hg hh => ?_
  obtain ⟨-, -, m, rfl, -⟩ := withMarker_of_predictFill hgh.left hg
  obtain ⟨-, -, m', rfl, -⟩ := withMarker_of_predictFill hgh.right hh
  exact hgh.adjacent

theorem minimumDegree :
    Script.EndTogether SameNodes (MinimumDegree.order g) (MinimumDegree.order h) :=
  MinimumDegree.follows_degreeCost.endTogether unordered_degreeCost hgh

theorem minimumFill :
    Script.EndTogether SameNodes (MinimumFill.order g) (MinimumFill.order h) :=
  MinimumFill.follows_fillCost.endTogether unordered_fillCost hgh

end SameNodes

theorem SameNodes.eliminateAll (p : List Nat) :
    ∀ {g h : EliminationGraph}, SameNodes g h →
      Script.EndTogether SameNodes (g.eliminateAll p) (h.eliminateAll p) := by
  induction p with
  | nil =>
      intro g h hgh
      exact Script.EndTogether.ok 0 hgh
  | cons n p ih =>
      intro g h hgh
      refine (hgh.eliminate n).bind fun added g₁ h₁ hgh₁ => ?_
      refine (ih hgh₁).bind fun more g₂ h₂ hgh₂ => ?_
      exact Script.EndTogether.ok (added + more) hgh₂

theorem SameNodes.fillIn (hgh : SameNodes g h) (p : List Nat) :
    Script.EndTogether SameNodes (g.fillIn p) (h.fillIn p) := by
  unfold EliminationGraph.fillIn
  rw [hgh.nactive_eq, hgh.nnodes]
  split
  · exact Script.EndTogether.error _
  split
  · exact Script.EndTogether.error _
  · exact SameNodes.eliminateAll p hgh

end EliminationGraph

/-! ### Searches

A search reads the nodes of the graph and its own marker, not that of the graph.
-/

namespace HopDegree

variable {g h : EliminationGraph} (hnodes : g.nodes = h.nodes)

include hnodes

theorem neighborsOf_congr (us : List Nat) : neighborsOf g us = neighborsOf h us := by
  induction us with
  | nil => rfl
  | cons u us ih =>
      unfold neighborsOf EliminationGraph.neighbors EliminationGraph.nnodes
      rw [ih, hnodes]

theorem levels_congr (rounds : Nat) :
    ∀ (m : Marker) (frontier : List Nat), levels g rounds m frontier = levels h rounds m frontier := by
  induction rounds with
  | zero =>
      intro m frontier
      rfl
  | succ rounds ih =>
      intro m frontier
      unfold levels
      simp only [neighborsOf_congr hnodes, ih]

theorem histogram_congr (k : HopDegree) (start : Nat) (m : Marker) :
    k.histogram g start m = k.histogram h start m := by
  unfold histogram rounds EliminationGraph.nnodes
  simp only [levels_congr hnodes, hnodes]

end HopDegree

end EliminationOrder

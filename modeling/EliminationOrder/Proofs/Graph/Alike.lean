/-
Graphs that differ only in how their lists are ordered.

The list of a node holds its neighbors in the order in which edges came in, so two ways
of building one graph give lists in different orders, and every elimination carries the
difference on.  `Alike` ignores it: the same nodes, active in both or in neither, and the
same neighbors as sets.  The marker is ignored too, as long as it can be trusted.

What follows is a simulation.  A call on two graphs that are alike ends in the same way
in both, with one answer and graphs that are alike again, or with one failure; `EndAlike`
says this of a pair of calls, and `EndAlike.bind` puts calls after each other.
-/
import EliminationOrder.FillIn
import EliminationOrder.Proofs.Graph.Reachable

namespace EliminationOrder.EliminationGraph

variable {g h g' h' : EliminationGraph} {n : Nat}

/-- Two sound graphs with the same active nodes and the same neighbors, in whatever order. -/
structure Alike (g h : EliminationGraph) : Prop where
  left : g.Sound
  right : h.Sound
  nnodes : g.nnodes = h.nnodes
  isActive : g.isActive = h.isActive
  mem_iff : ∀ i j, j ∈ g.adjacent i ↔ j ∈ h.adjacent i

namespace Alike

variable (hgh : Alike g h)

include hgh

theorem activeNodes_eq : g.activeNodes = h.activeNodes := by
  unfold activeNodes
  rw [hgh.nnodes, hgh.isActive]

theorem nactive_eq : g.nactive = h.nactive := by
  rw [hgh.left.valid.nactive_eq_length, hgh.right.valid.nactive_eq_length, hgh.activeNodes_eq]

/-- No list repeats a node, so lists with the same entries are rearrangements. -/
theorem perm (i : Nat) : (g.adjacent i).Perm (h.adjacent i) := by
  rw [List.perm_ext_iff_of_nodup (hgh.left.valid.nodup_adjacent i)
    (hgh.right.valid.nodup_adjacent i)]
  exact hgh.mem_iff i

theorem toFinset_eq (i : Nat) : (g.adjacent i).toFinset = (h.adjacent i).toFinset :=
  List.toFinset_eq_of_perm _ _ (hgh.perm i)

/-- The missing edges are a set of pairs, in which no list is read in order. -/
theorem missing_eq (n : Nat) : g.missing n = h.missing n := by
  have hpairs : ∀ s : Finset Nat, unjoinedPairs g.adjacent s = unjoinedPairs h.adjacent s := by
    intro s
    ext ⟨a, b⟩
    rw [mem_unjoinedPairs, mem_unjoinedPairs, hgh.mem_iff]
  rw [missing_eq_card hgh.left.valid, missing_eq_card hgh.right.valid, hgh.toFinset_eq, hpairs]

/-- **Eliminating a node keeps graphs alike.** -/
theorem eliminated (hg : Eliminated g n g') (hh : Eliminated h n h') : Alike g' h' where
  left := hg.sound
  right := hh.sound
  nnodes := by rw [hg.nnodes, hh.nnodes, hgh.nnodes]
  isActive := by
    funext i
    rw [hg.isActive, hh.isActive, hgh.isActive]
  mem_iff u v := by
    rw [hg.mem_adjacent hgh.left.valid, hh.mem_adjacent hgh.right.valid, hgh.mem_iff, hgh.mem_iff,
      hgh.mem_iff]

theorem withMarker {m m' : Marker} (hm : Marker.Ready g.nnodes m)
    (hm' : Marker.Ready h.nnodes m') : Alike (g.withMarker m) (h.withMarker m') :=
  ⟨hgh.left.withMarker hm, hgh.right.withMarker hm', hgh.nnodes, hgh.isActive, hgh.mem_iff⟩

theorem activeNeighbors_error (hn : g.isActive n = false) :
    ∃ e, g.activeNeighbors n = .error e ∧ h.activeNeighbors n = .error e := by
  refine ⟨_, activeNeighbors_eq_error hn, ?_⟩
  rw [activeNeighbors_eq_error (by rw [← hgh.isActive]; exact hn), hgh.nnodes]

end Alike

/-- Without an active node, graphs of one size are alike. -/
theorem alike_of_none_active (hg : g.Sound) (hh : h.Sound) (hnnodes : g.nnodes = h.nnodes)
    (hgone : ∀ i, g.isActive i = false) (hgone' : ∀ i, h.isActive i = false) : Alike g h where
  left := hg
  right := hh
  nnodes := hnnodes
  isActive := by
    funext i
    rw [hgone, hgone']
  mem_iff i j := by rw [adjacent_eq_nil (hgone i), adjacent_eq_nil (hgone' i)]

/-! ### Calls on graphs that are alike -/

/-- Two calls end with one answer and graphs that are alike, or with one failure. -/
inductive EndAlike {α : Type} :
    Outcome (α × EliminationGraph) → Outcome (α × EliminationGraph) → Prop
  | ok (a : α) {g h : EliminationGraph} (hgh : Alike g h) : EndAlike (.ok (a, g)) (.ok (a, h))
  | error (e : Failure) : EndAlike (.error e) (.error e)

namespace EndAlike

variable {α β : Type}

theorem bind {x y : Outcome (α × EliminationGraph)}
    {f f' : α × EliminationGraph → Outcome (β × EliminationGraph)} (hxy : EndAlike x y)
    (hf : ∀ a g h, Alike g h → EndAlike (f (a, g)) (f' (a, h))) :
    EndAlike (x >>= f) (y >>= f') := by
  cases hxy with
  | ok a hgh => exact hf a _ _ hgh
  | error e => exact EndAlike.error e

/-- Calls that end alike give the same answer or fail in the same way. -/
theorem answer_eq {x y : Outcome (α × EliminationGraph)} (h : EndAlike x y) :
    (x >>= fun r => pure r.1) = (y >>= fun r => pure r.1) := by
  cases h with
  | ok a _ => rfl
  | error e => rfl

end EndAlike

namespace Alike

variable (hgh : Alike g h)

include hgh

theorem degree (i : Nat) : g.degree i = h.degree i := by
  by_cases hi : i < g.nnodes
  · rw [degree_eq hi, degree_eq (by rw [← hgh.nnodes]; exact hi), (hgh.perm i).length_eq]
  · have hi' : ¬ i < h.nnodes := by rw [← hgh.nnodes]; exact hi
    have hg : g.nodes[i]? = none := Array.getElem?_eq_none (Nat.not_lt.mp hi)
    have hh : h.nodes[i]? = none := Array.getElem?_eq_none (Nat.not_lt.mp hi')
    simp [EliminationGraph.degree, neighbors, hg, hh, hgh.nnodes]

theorem eliminate (n : Nat) : EndAlike (g.eliminate n) (h.eliminate n) := by
  cases hn : g.isActive n with
  | true =>
      have hn' : h.isActive n = true := by rw [← hgh.isActive]; exact hn
      obtain ⟨g', hg, hstep⟩ := eliminate_missing hgh.left hn
      obtain ⟨h', hh, hstep'⟩ := eliminate_missing hgh.right hn'
      rw [hg, hh, hgh.missing_eq]
      exact EndAlike.ok _ (hgh.eliminated hstep hstep')
  | false =>
      obtain ⟨e, hg, hh⟩ := hgh.activeNeighbors_error hn
      rw [EliminationGraph.eliminate, EliminationGraph.eliminate, hg, hh]
      exact EndAlike.error e

theorem predictFill (n : Nat) : EndAlike (g.predictFill n) (h.predictFill n) := by
  cases hn : g.isActive n with
  | true =>
      have hn' : h.isActive n = true := by rw [← hgh.isActive]; exact hn
      obtain ⟨m, hg, hready⟩ := predictFill_ok hgh.left hn
      obtain ⟨m', hh, hready'⟩ := predictFill_ok hgh.right hn'
      rw [hg, hh, hgh.missing_eq]
      exact EndAlike.ok _ (hgh.withMarker hready hready')
  | false =>
      obtain ⟨e, hg, hh⟩ := hgh.activeNeighbors_error hn
      rw [EliminationGraph.predictFill, EliminationGraph.predictFill, hg, hh]
      exact EndAlike.error e

end Alike

theorem Alike.eliminateAll (p : List Nat) :
    ∀ {g h : EliminationGraph}, Alike g h → EndAlike (g.eliminateAll p) (h.eliminateAll p) := by
  induction p with
  | nil =>
      intro g h hgh
      exact EndAlike.ok 0 hgh
  | cons n p ih =>
      intro g h hgh
      refine (hgh.eliminate n).bind fun added g₁ h₁ hgh₁ => ?_
      refine (ih hgh₁).bind fun more g₂ h₂ hgh₂ => ?_
      exact EndAlike.ok (added + more) hgh₂

/-- **The fill of an order does not depend on how the lists are ordered.** -/
theorem Alike.fillIn (hgh : Alike g h) (p : List Nat) : EndAlike (g.fillIn p) (h.fillIn p) := by
  unfold EliminationGraph.fillIn
  rw [hgh.nactive_eq, hgh.nnodes]
  split
  · exact EndAlike.error _
  split
  · exact EndAlike.error _
  · exact Alike.eliminateAll p hgh

end EliminationOrder.EliminationGraph

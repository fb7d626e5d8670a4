/-
The minimum degree rule fills nothing on a forest.

A forest that has a node left has a leaf: it is chordal, so it has a simplicial node, and
that can be no other.  The node of lowest degree is then a leaf too, or alone, and its
elimination creates no edge.  So only edges are left that were there before, and what is
left is a forest again.  `GreedyRun.perfectOrder_of_kept` puts this together for a whole
run, and the order that comes out takes a leaf of what is left at every step.
-/
import EliminationOrder.Proofs.Ordering.MinimumDegree
import EliminationOrder.Proofs.Ordering.PerfectElimination

namespace EliminationOrder

namespace EliminationGraph

open MinimumDegree

variable {g g' g₁ : EliminationGraph} {n : Nat} {p : List Nat}

theorem joined_symm (hg : g.Valid) (i j : Nat) (h : g.Joined i j) : g.Joined j i :=
  hg.mem_comm.mp h

/-! ### Leaves of what is left -/

/-- **A forest with an active node has one with no more than one neighbor.** -/
theorem exists_leaf (hg : g.Valid) (hforest : Forest g.Joined) (hn : g.isActive n = true) :
    ∃ w, g.isActive w = true ∧ (g.adjacent w).length ≤ 1 := by
  have hne : g.activeNodes.toFinset.Nonempty :=
    ⟨n, List.mem_toFinset.mpr (mem_activeNodes.mpr hn)⟩
  obtain ⟨w, hw, hsimplicial⟩ :=
    hforest.chordal.exists_simplicial (joined_symm hg) hg.not_mem_self hne
  have hmem : ∀ a ∈ g.adjacent w, a ∈ g.activeNodes.toFinset := by
    intro a ha
    exact List.mem_toFinset.mpr (mem_activeNodes.mpr (hg.isActive_of_mem ha))
  refine ⟨w, mem_activeNodes.mp (List.mem_toFinset.mp hw), ?_⟩
  rw [← List.toFinset_card_of_nodup (hg.nodup_adjacent w), Finset.card_le_one]
  intro a ha b hb
  rw [List.mem_toFinset] at ha hb
  exact hforest.eq_of_simplicial (joined_symm hg) hg.not_mem_self hsimplicial (hmem a ha) (hmem b hb)
    ha hb

/-- A node with no more than one neighbor creates no edge. -/
theorem missing_eq_zero_of_length_le_one (h : (g.adjacent n).length ≤ 1) : g.missing n = 0 := by
  unfold missing
  match g.adjacent n, h with
  | [], _ => rfl
  | [a], _ => rfl

/-- On a forest the rule takes a node without fill. -/
theorem Least.missing_eq_zero_of_forest (hn : Least degreeCost g n) (hg : g.Valid)
    (hforest : Forest g.Joined) : g.missing n = 0 := by
  obtain ⟨w, hw, hleaf⟩ := exists_leaf hg hforest hn.isActive
  have hle : (g.adjacent n).length ≤ (g.adjacent w).length := (hn.least w hw).1
  exact missing_eq_zero_of_length_le_one (hle.trans hleaf)

/-- **What is left of a forest is a forest.** -/
theorem Eliminated.forest (hstep : Eliminated g n g₁) (hg : g.Valid) (hfree : g.missing n = 0)
    (hforest : Forest g.Joined) : Forest g₁.Joined := by
  refine hforest.mono fun u v h => ?_
  obtain ⟨hu, hv, -⟩ := (hstep.mem_adjacent hg).mp h
  exact (hstep.joined_iff hg hfree hu hv).mp h

/-- The rule takes the nodes of a forest in a perfect order. -/
theorem GreedyRun.perfectOrder_of_forest (h : GreedyRun degreeCost g p g') (hg : g.Sound)
    (hforest : Forest g.Joined) : PerfectOrder g.Joined p := by
  refine h.perfectOrder_of_kept (fun g => Forest g.Joined) ?_ ?_ hg hforest
  · intro g n hg hforest hn
    exact hn.missing_eq_zero_of_forest hg hforest
  · intro g g₁ n hg hforest hfree hstep
    exact hstep.forest hg hfree hforest

end EliminationGraph

open EliminationGraph

variable {α : Type} [Entry α] {a : StoredMatrix α}

/--
**Minimum degree fills nothing on a forest.**  If the symmetrised pattern of a square matrix
has no cycle, the order that the minimum degree rule gives has fill zero: each row is joined
to at most one of those that come later.
-/
theorem order_minimumDegree_of_forest (hsquare : a.nrows = a.ncols) (hforest : Forest a.Joined) :
    ∃ q, Method.exactMinimumDegree.order a = .ok q ∧ fillIn a q = .ok 0 ∧ LeafOrder a.Joined q := by
  obtain ⟨g, hg, hfresh, hadj⟩ := ofMatrix_ok hsquare
  obtain ⟨q, g', horder, hgreedy⟩ := MinimumDegree.order_ok hfresh.sound
  have hjoined := joined_eq_of_mem hadj
  have hperfect : PerfectOrder a.Joined q :=
    hjoined ▸ hgreedy.perfectOrder_of_forest hfresh.sound (hjoined ▸ hforest)
  refine ⟨q, by simp [Method.order, hg, horder], ?_, ?_⟩
  · exact (fillIn_eq_zero_iff hsquare).mpr ⟨hgreedy.perm_range hfresh, hperfect⟩
  · exact hperfect.leafOrder StoredMatrix.joined_symm (fun _ h => h.1 rfl) hforest

/-- Six rows in two trees: the first is joined to the next three, and the last two to each other. -/
def twoTrees : StoredMatrix UInt8 :=
  .dense ⟨6, 6, #[1, 1, 1, 1, 0, 0, 0, 1, 0, 0, 0, 0, 0, 0, 1, 0, 0, 0, 0, 0, 0, 1, 0, 0,
    0, 0, 0, 0, 1, 0, 0, 0, 0, 0, 1, 1], rfl⟩

/-- The order by number fills the three pairs of the first tree, and the rule fills none. -/
theorem order_minimumDegree_twoTrees :
    twoTrees.nrows = twoTrees.ncols ∧ Forest twoTrees.Joined ∧
      fillIn twoTrees [0, 1, 2, 3, 4, 5] = .ok 3 ∧
      Method.exactMinimumDegree.order twoTrees = .ok [1, 2, 0, 3, 4, 5] ∧
      fillIn twoTrees [1, 2, 0, 3, 4, 5] = .ok 0 := by
  have hleaves : LeafOrder twoTrees.Joined [3, 1, 2, 0, 5, 4] := by decide +kernel
  have hforest : Forest twoTrees.Joined := by
    refine hleaves.forest StoredMatrix.joined_symm fun i j h => ?_
    have hall : ∀ i < 6, i ∈ [3, 1, 2, 0, 5, 4] := by decide
    exact hall i (StoredMatrix.lt_of_joined rfl h)
  obtain ⟨q, horder, hfill, -⟩ := order_minimumDegree_of_forest (a := twoTrees) rfl hforest
  have hfilled : fillIn twoTrees [0, 1, 2, 3, 4, 5] = .ok 3 :=
    Outcome.toOption_eq_some.mp (by decide +kernel)
  have hrule : Method.exactMinimumDegree.order twoTrees = .ok [1, 2, 0, 3, 4, 5] :=
    Outcome.toOption_eq_some.mp (by decide +kernel)
  obtain rfl : q = [1, 2, 0, 3, 4, 5] := Except.ok.inj (horder.symm.trans hrule)
  exact ⟨rfl, hforest, hfilled, hrule, hfill⟩

end EliminationOrder

/-
Elimination is reachability through eliminated nodes.

After some nodes have been eliminated, two of the others are joined just when the graph
before had a path between them with every interior node among the eliminated ones.  The
induction is on the list of eliminated nodes.  One elimination joins the neighbors of
its node, and `walk_splice_iff` turns that into walks that may pass through the node;
the rest of the list is the induction hypothesis, about the graph in between.

The description does not mention the order of the list, so neither does the result
depend on it.
-/
import EliminationOrder.Proofs.Graph.Reachable
import EliminationOrder.Proofs.Path

namespace EliminationOrder.EliminationGraph

variable {g g' : EliminationGraph} {n k u v : Nat} {s : List Nat}

/-- `j` is in the list of `i`. -/
def Joined (g : EliminationGraph) (i j : Nat) : Prop :=
  j ∈ g.adjacent i

/-- The graph of a matrix joins what the pattern of the matrix does. -/
theorem joined_eq_of_mem {α : Type} [Entry α] {a : StoredMatrix α}
    (hadj : ∀ i j, j ∈ g.adjacent i ↔ a.Joined i j) : g.Joined = a.Joined := by
  funext i j
  exact propext (hadj i j)

/-- Walks after one elimination are walks before that may pass through its node. -/
theorem Eliminated.walk_iff {inside : Nat → Prop} (h : Eliminated g n g') (hg : g.Valid)
    (huv : u ≠ v) (hu : u ≠ n) (hv : v ≠ n) :
    Walk g'.Joined inside u v ↔ Walk g.Joined (fun w => w = n ∨ inside w) u v :=
  walk_splice_iff (fun _ _ => h.mem_adjacent hg) (fun _ _ hab => hg.mem_comm.mp hab)
    (fun a => hg.not_mem_self a) huv hu hv

/-- **Nodes left over are joined by the walks through what was eliminated.** -/
theorem Run.joined_iff_walk (h : Run g s k g') (hg : g.Sound) (huv : u ≠ v) (hu : u ∉ s)
    (hv : v ∉ s) : g'.Joined u v ↔ Walk g.Joined (· ∈ s) u v := by
  induction h with
  | nil g => exact (walk_iff_of_forall_not (by simp)).symm
  | @cons g g₁ g₂ n k ns _ hstep _ ih =>
      have hun : u ≠ n := fun hc => hu (by simp [hc])
      have hvn : v ≠ n := fun hc => hv (by simp [hc])
      rw [ih hstep.sound (fun hc => hu (by simp [hc])) (fun hc => hv (by simp [hc])),
        hstep.walk_iff hg.valid huv hun hvn]
      simp only [List.mem_cons]

theorem Run.joined_iff_path (h : Run g s k g') (hg : g.Sound) (huv : u ≠ v) (hu : u ∉ s)
    (hv : v ∉ s) : g'.Joined u v ↔ PathThrough g.Joined (· ∈ s) u v := by
  rw [h.joined_iff_walk hg huv hu hv, pathThrough_iff_walk huv hu hv]

/-- Two runs over the same nodes leave the same neighbors. -/
theorem Run.mem_adjacent_congr {t : List Nat} {l : Nat} {g'' : EliminationGraph}
    (h : Run g s k g') (h' : Run g t l g'') (hg : g.Sound) (hst : ∀ n, n ∈ s ↔ n ∈ t)
    (hu : u ∉ s) (v : Nat) : v ∈ g'.adjacent u ↔ v ∈ g''.adjacent u := by
  -- Neither run leaves a list that names its own node or one that is gone.
  by_cases huv : u = v
  · subst huv
    simp [(h.sound hg).valid.not_mem_self u, (h'.sound hg).valid.not_mem_self u]
  by_cases hv : v ∈ s
  · have hgone : v ∉ g'.adjacent u := fun hc =>
      ((h.isActive_iff v).mp ((h.sound hg).valid.isActive_of_mem hc)).1 hv
    have hgone' : v ∉ g''.adjacent u := fun hc =>
      ((h'.isActive_iff v).mp ((h'.sound hg).valid.isActive_of_mem hc)).1 ((hst v).mp hv)
    simp [hgone, hgone']
  · have hut : u ∉ t := fun hc => hu ((hst u).mpr hc)
    have hvt : v ∉ t := fun hc => hv ((hst v).mpr hc)
    have h₁ := h.joined_iff_walk hg huv hu hv
    have h₂ := h'.joined_iff_walk hg huv hut hvt
    simp only [hst] at h₁
    exact h₁.trans h₂.symm

/-- Different nodes of a fresh graph can be eliminated in any order. -/
theorem Fresh.eliminateAll_ok {size : Nat} (hg : Fresh size g) (hs : s.Nodup)
    (hnodes : ∀ n ∈ s, n < size) : ∃ k g', g.eliminateAll s = .ok (k, g') ∧ Run g s k g' :=
  EliminationGraph.eliminateAll_ok s hg.sound hs
    (fun n hn => by rw [hg.isActive]; exact decide_eq_true (hnodes n hn))

/--
**Elimination is reachability through eliminated nodes.**  Different nodes of a freshly
built graph can be eliminated in any order, and afterwards two nodes left over are
joined just when the graph had a path between them with its interior among the
eliminated nodes.  Eliminating the same nodes in another order leaves the same
neighbors everywhere.
-/
theorem eliminateAll_joined_iff_path (hg : Built g) (hs : s.Nodup)
    (hnodes : ∀ n ∈ s, n < g.nnodes) :
    ∃ k g', g.eliminateAll s = .ok (k, g') ∧
      (∀ u v, u < g.nnodes → v < g.nnodes → u ∉ s → v ∉ s → u ≠ v →
        ∃ ns, g'.neighbors u = .ok ns ∧ (v ∈ ns ↔ PathThrough g.Joined (· ∈ s) u v)) ∧
      ∀ t : List Nat, t.Perm s → ∃ l g'', g.eliminateAll t = .ok (l, g'') ∧
        ∀ u, u < g.nnodes → u ∉ s → ∃ ns ns', g'.neighbors u = .ok ns ∧
          g''.neighbors u = .ok ns' ∧ ∀ v, v ∈ ns ↔ v ∈ ns' := by
  have hfresh := hg.fresh
  obtain ⟨k, g', hall, hrun⟩ := hfresh.eliminateAll_ok hs hnodes
  have hread : ∀ u, u < g.nnodes → g'.neighbors u = .ok (g'.adjacent u) := by
    intro u hu
    exact neighbors_eq (by rw [hrun.nnodes]; exact hu)
  refine ⟨k, g', hall, ?_, ?_⟩
  · intro u v hu _ hus hvs huv
    exact ⟨g'.adjacent u, hread u hu, hrun.joined_iff_path hfresh.sound huv hus hvs⟩
  · intro t ht
    obtain ⟨l, g'', hall', hrun'⟩ := hfresh.eliminateAll_ok (ht.nodup_iff.mpr hs)
      (fun n hn => hnodes n (ht.mem_iff.mp hn))
    refine ⟨l, g'', hall', ?_⟩
    intro u hu hus
    refine ⟨g'.adjacent u, g''.adjacent u, hread u hu, ?_, ?_⟩
    · exact neighbors_eq (by rw [hrun'.nnodes]; exact hu)
    · exact hrun.mem_adjacent_congr hrun' hfresh.sound (fun n => ht.mem_iff.symm) hus

/-- On a path of four nodes, eliminating the middle joins the ends. -/
theorem eliminateAll_fourPath :
    Built fourPath ∧ [2, 1].Nodup ∧ (∀ n ∈ [2, 1], n < fourPath.nnodes) ∧
      ∃ k g', fourPath.eliminateAll [2, 1] = .ok (k, g') ∧ ∃ ns, g'.neighbors 0 = .ok ns ∧
        (3 ∈ ns ↔ PathThrough fourPath.Joined (· ∈ [2, 1]) 0 3) := by
  have hnodup : [2, 1].Nodup := by decide
  have hnodes : ∀ n ∈ [2, 1], n < fourPath.nnodes := by decide
  obtain ⟨k, g', hall, hpath, -⟩ := eliminateAll_joined_iff_path built_fourPath hnodup hnodes
  exact ⟨built_fourPath, hnodup, hnodes, k, g', hall,
    hpath 0 3 (by decide) (by decide) (by decide) (by decide) (by decide)⟩

end EliminationOrder.EliminationGraph

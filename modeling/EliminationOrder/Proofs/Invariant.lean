/-
The invariant over whole histories.

`Reachable.sound` already says that calls keep a graph sound.  Here that is spelled out
for whoever uses a graph: what can be read off it at any time (`Consistent`), and which
calls answer (`Answering`).  Orders and fill counts are calls on single nodes, one after
the other, so the graphs they pass through are covered too.
-/
import EliminationOrder.Proofs.FillRequest
import EliminationOrder.Proofs.Ordering.MinimumDegree
import EliminationOrder.Proofs.Ordering.MinimumFill

namespace EliminationOrder.EliminationGraph

variable {g g' : EliminationGraph} {k : Nat} {p : List Nat}

/-! ### Fill counts -/

theorem calls_of_fillIn (h : g.fillIn p = .ok (k, g')) : Calls g g' := by
  unfold fillIn at h
  split at h
  · simp at h
  split at h
  · simp at h
  · exact Calls.of_eliminateAll h

/-! ### What can be relied on -/

/-- What a graph satisfies between any two calls. -/
structure Consistent (g : EliminationGraph) : Prop where
  /-- The check of the invariant succeeds. -/
  checked : g.check = .ok ()
  /-- The count is the number of active nodes. -/
  counted : g.nactive = g.activeNodes.length
  /-- A node that is gone has an empty list. -/
  gone : ∀ i, g.isActive i = false → g.adjacent i = []
  loopless : ∀ i, i ∉ g.adjacent i
  nodup : ∀ i, (g.adjacent i).Nodup
  /-- Lists name active nodes only. -/
  active : ∀ i, ∀ j ∈ g.adjacent i, j < g.nnodes ∧ g.isActive j = true
  symm : ∀ i j, j ∈ g.adjacent i ↔ i ∈ g.adjacent j

/-- Which calls answer, and what they do to the nodes. -/
structure Answering (g : EliminationGraph) : Prop where
  /-- Eliminating an active node takes out that node and no other. -/
  eliminate : ∀ n, g.isActive n = true → ∃ k g', g.eliminate n = .ok (k, g') ∧
    g'.nnodes = g.nnodes ∧ ∀ i, g'.isActive i = true ↔ i ≠ n ∧ g.isActive i = true
  /-- Predicting the fill of an active node changes no node. -/
  predictFill : ∀ n, g.isActive n = true → ∃ k g', g.predictFill n = .ok (k, g') ∧
    g'.nodes = g.nodes ∧ g'.nactive = g.nactive
  minimumDegree : ∃ p g', MinimumDegree.order g = .ok (p, g') ∧ Calls g g'
  minimumFill : ∃ p g', MinimumFill.order g = .ok (p, g') ∧ Calls g g'
  fillIn : ∀ p, (∃ k g', g.fillIn p = .ok (k, g') ∧ Calls g g') ∨
    ∃ r, g.fillIn p = .error (.refused r)

theorem Sound.consistent (hg : g.Sound) : Consistent g where
  checked := by rw [check, if_pos hg.valid]
  counted := hg.valid.nactive_eq_length
  gone _ hi := adjacent_eq_nil hi
  loopless := hg.valid.not_mem_self
  nodup := hg.valid.nodup_adjacent
  active _ _ hj := ⟨hg.valid.lt_of_mem hj, hg.valid.isActive_of_mem hj⟩
  symm _ _ := hg.valid.mem_comm

theorem Sound.answering (hg : g.Sound) : Answering g where
  eliminate n hn := by
    obtain ⟨g', helim, hstep⟩ := eliminate_ok hg hn
    exact ⟨_, g', helim, hstep.nnodes, fun i => by simp [hstep.isActive]⟩
  predictFill n hn := by
    obtain ⟨m, hpredict, -⟩ := predictFill_ok hg hn
    exact ⟨_, _, hpredict, rfl, rfl⟩
  minimumDegree := by
    obtain ⟨p, g', horder, -⟩ := MinimumDegree.order_ok hg
    exact ⟨p, g', horder, MinimumDegree.calls_of_run horder⟩
  minimumFill := by
    obtain ⟨p, g', horder, -⟩ := MinimumFill.order_ok hg
    exact ⟨p, g', horder, MinimumFill.calls_of_run horder⟩
  fillIn p := by
    rcases hg.fillIn_answers p with ⟨k, g', hfill⟩ | hrefused
    · exact Or.inl ⟨k, g', hfill, calls_of_fillIn hfill⟩
    · exact Or.inr hrefused

/--
**The invariant holds over whole histories.**  Every list of edges between nodes and every
square matrix makes a graph.  Whatever has been called on a graph since it was made, it is
consistent, calls on active nodes answer, and later calls bring no node back.
-/
theorem consistent_over_calls :
    (∀ (n : Nat) (edges : List (Nat × Nat)), (∀ e ∈ edges, e.1 < n ∧ e.2 < n) →
      ∃ g, ofEdges n edges = .ok g ∧ g.nnodes = n ∧ ∀ i < n, g.isActive i = true) ∧
    (∀ {α : Type} [Entry α] (a : StoredMatrix α), a.nrows = a.ncols →
      ∃ g, ofMatrix a = .ok g ∧ g.nnodes = a.nrows ∧ ∀ i < a.nrows, g.isActive i = true) ∧
    ∀ g₀ g, Built g₀ → Calls g₀ g → Consistent g ∧ Answering g ∧
      ∀ g', Calls g g' → ∀ i, g'.isActive i = true → g.isActive i = true := by
  refine ⟨?_, ?_, ?_⟩
  · intro n edges hrange
    obtain ⟨g, hok, hfresh, -⟩ := ofEdges_ok hrange
    exact ⟨g, hok, hfresh.nnodes, fun i hi => by simp [hfresh.isActive, hi]⟩
  · intro α _ a hsquare
    obtain ⟨g, hok, hfresh, -⟩ := ofMatrix_ok hsquare
    exact ⟨g, hok, hfresh.nnodes, fun i hi => by simp [hfresh.isActive, hi]⟩
  · intro g₀ g hbuilt hcalls
    have hg : g.Sound := hcalls.sound hbuilt.fresh.sound
    exact ⟨hg.consistent, hg.answering, fun g' hlater i hi => hlater.isActive_of_isActive hg hi⟩

/-- Edges, a matrix, and a path of four nodes that has lost its second. -/
theorem consistent_shortenedPath :
    let edges : List (Nat × Nat) := [(0, 1), (1, 2), (2, 3)]
    let a : StoredMatrix UInt8 := .dense ⟨2, 2, #[1, 0, 1, 1], rfl⟩
    (∀ e ∈ edges, e.1 < 4 ∧ e.2 < 4) ∧ (∃ g, ofEdges 4 edges = .ok g) ∧
      a.nrows = a.ncols ∧ (∃ g, ofMatrix a = .ok g) ∧
      Built fourPath ∧ Calls fourPath shortenedPath ∧ Consistent shortenedPath ∧
      ∃ k g', shortenedPath.eliminate 0 = .ok (k, g') ∧
        ∀ i, g'.isActive i = true ↔ i ≠ 0 ∧ shortenedPath.isActive i = true := by
  intro edges a
  obtain ⟨hedges, hmatrix, hcalls⟩ := consistent_over_calls
  have hrange : ∀ e ∈ edges, e.1 < 4 ∧ e.2 < 4 := by decide
  obtain ⟨g₁, hok₁, -⟩ := hedges 4 edges hrange
  have hsquare : a.nrows = a.ncols := rfl
  obtain ⟨g₂, hok₂, -⟩ := hmatrix a hsquare
  obtain ⟨hconsistent, hanswering, -⟩ :=
    hcalls fourPath shortenedPath built_fourPath calls_shortenedPath
  obtain ⟨k, g', hnext, -, hactive⟩ := hanswering.eliminate 0 rfl
  exact ⟨hrange, ⟨g₁, hok₁⟩, hsquare, ⟨g₂, hok₂⟩, built_fourPath, calls_shortenedPath,
    hconsistent, k, g', hnext, hactive⟩

end EliminationOrder.EliminationGraph

/-
What a freshly built graph is.

`ofLists` drops repetitions and then checks the invariant; `ofLists_ok` shows that the
check cannot fail on lists that are symmetric and free of loops.  `ofEdges` makes such
lists of any edges whose ends are nodes, and only of those.  A built graph is `Fresh`:
sound, of the size asked for, with every node active.
-/
import EliminationOrder.Proofs.Graph.Sound

namespace EliminationOrder.EliminationGraph

variable {n : Nat} {g : EliminationGraph}

/-- A sound graph on `n` nodes that has lost none. -/
structure Fresh (n : Nat) (g : EliminationGraph) : Prop where
  sound : g.Sound
  nnodes : g.nnodes = n
  isActive : ∀ i, g.isActive i = decide (i < n)

/-- A graph that has lost no node counts all of them. -/
theorem Fresh.nactive_eq (h : Fresh n g) : g.nactive = n := by
  have hall : g.nodes.countP Node.isActive = g.nodes.size := by
    refine Array.countP_eq_size.mpr fun node hnode => ?_
    obtain ⟨i, hi⟩ := Array.mem_iff_getElem?.mp hnode
    have hlt : i < n := by
      rw [← h.nnodes]
      exact (Array.getElem?_eq_some_iff.mp hi).1
    simpa [EliminationGraph.isActive, hi, hlt] using h.isActive i
  rw [← h.sound.valid.counted, hall]
  exact h.nnodes

/-- An order of the numbers below the size holds every active node. -/
theorem Fresh.mem_order (h : Fresh n g) {p : List Nat} (hp : p.Perm (List.range n)) (i : Nat)
    (hi : g.isActive i = true) : i ∈ p := by
  rw [h.isActive, decide_eq_true_eq] at hi
  exact hp.mem_iff.mpr (List.mem_range.mpr hi)

/-! ### From lists -/

theorem ofLists_ok {lists : List (List Nat)}
    (hloop : ∀ i : Nat, i ∉ lists[i]?.getD [])
    (hsymm : ∀ i : Nat, ∀ j ∈ lists[i]?.getD [], i ∈ lists[j]?.getD []) :
    ∃ g, ofLists lists = .ok g ∧ Fresh lists.length g ∧
      ∀ i, g.adjacent i = (lists[i]?.getD []).eraseDups := by
  -- An entry names a list that is not empty, so it is in range.
  have hlt : ∀ is ∈ lists, ∀ i ∈ is, i < lists.length := by
    intro is his j hj
    obtain ⟨i, hi⟩ := List.mem_iff_getElem?.mp his
    have hback := hsymm i j (by rw [hi]; exact hj)
    by_contra hc
    rw [List.getElem?_eq_none (Nat.not_lt.mp hc)] at hback
    simp at hback
  obtain ⟨m, hdedup, hready⟩ :=
    Marker.dedupAll_ok lists (Marker.fresh_ready lists.length) hlt
  set g : EliminationGraph :=
    { nodes := ((lists.map List.eraseDups).map Node.active).toArray
      nactive := (lists.map List.eraseDups).length, marker := m } with hg
  have hadj : ∀ i, g.adjacent i = (lists[i]?.getD []).eraseDups := by
    intro i
    cases hi : lists[i]? with
    | none => simp [adjacent, hg, hi]
    | some is => simp [adjacent, hg, hi, Node.neighbors]
  have hactive : ∀ i, g.isActive i = decide (i < lists.length) := by
    intro i
    by_cases hi : i < lists.length
    · simp [isActive, hg, hi, Node.isActive]
    · simp [isActive, hg, hi]
  have hnnodes : g.nnodes = lists.length := by simp [nnodes, hg]
  have hvalid : g.Valid := by
    refine ⟨?_, ?_, ?_, ?_⟩
    · rw [Array.countP_eq_size.mpr (by simp [hg, Node.isActive])]
      simp [hg]
    · intro i _
      rw [hadj, List.mem_eraseDups]
      exact hloop i
    · intro i _
      rw [hadj]
      exact nodup_eraseDups _
    · intro i _ j
      rw [hadj, hadj, List.mem_eraseDups, List.mem_eraseDups]
      exact hsymm i j
  refine ⟨g, ?_, ⟨⟨hvalid, by rw [hnnodes]; exact hready⟩, hnnodes, hactive⟩, hadj⟩
  simp only [ofLists, hdedup, Outcome.ok_bind]
  rw [← hg, check, if_pos hvalid]
  rfl

/-! ### From edges -/

theorem across_eq_some {i j : Nat} {edge : Nat × Nat} :
    across i edge = some j ↔ i ≠ j ∧ (edge = (i, j) ∨ edge = (j, i)) := by
  obtain ⟨a, b⟩ := edge
  simp only [across, Prod.mk.injEq]
  split
  · simp only [reduceCtorEq, false_iff]
    omega
  split
  · simp only [Option.some.injEq]
    omega
  split
  · simp only [Option.some.injEq]
    omega
  · simp only [reduceCtorEq, false_iff]
    omega

theorem mem_filterMap_across {i j : Nat} {edges : List (Nat × Nat)} :
    j ∈ edges.filterMap (across i) ↔ i ≠ j ∧ ((i, j) ∈ edges ∨ (j, i) ∈ edges) := by
  simp only [List.mem_filterMap, across_eq_some]
  constructor
  · intro h
    obtain ⟨edge, hmem, hij, hedge⟩ := h
    rcases hedge with rfl | rfl
    · exact ⟨hij, Or.inl hmem⟩
    · exact ⟨hij, Or.inr hmem⟩
  · intro h
    obtain ⟨hij, hedge⟩ := h
    rcases hedge with hmem | hmem
    · exact ⟨_, hmem, hij, Or.inl rfl⟩
    · exact ⟨_, hmem, hij, Or.inr rfl⟩

/-- **Edges between nodes make a graph**, which lists at each node the other ends of its edges. -/
theorem ofEdges_lists {edges : List (Nat × Nat)} (hrange : ∀ e ∈ edges, e.1 < n ∧ e.2 < n) :
    ∃ g, ofEdges n edges = .ok g ∧ Fresh n g ∧
      ∀ i, g.adjacent i = (edges.filterMap (across i)).eraseDups := by
  set lists := (List.range n).map fun i => edges.filterMap (across i) with hlists
  have hget : ∀ i : Nat, lists[i]?.getD [] = edges.filterMap (across i) := by
    intro i
    by_cases hi : i < n
    · simp [hlists, hi]
    · -- There is no such list, and an edge with this end would be out of range.
      have hnone : edges.filterMap (across i) = [] := by
        refine List.eq_nil_iff_forall_not_mem.mpr fun j hj => ?_
        rcases (mem_filterMap_across.mp hj).2 with hmem | hmem
        · exact hi (hrange _ hmem).1
        · exact hi (hrange _ hmem).2
      simp [hlists, Nat.not_lt.mp hi, hnone]
  have hloop : ∀ i : Nat, i ∉ lists[i]?.getD [] := by
    intro i hi
    rw [hget] at hi
    exact (mem_filterMap_across.mp hi).1 rfl
  have hsymm : ∀ i : Nat, ∀ j ∈ lists[i]?.getD [], i ∈ lists[j]?.getD [] := by
    intro i j hj
    rw [hget] at hj ⊢
    obtain ⟨hij, hedge⟩ := mem_filterMap_across.mp hj
    exact mem_filterMap_across.mpr ⟨hij.symm, hedge.symm⟩
  obtain ⟨g, hok, hfresh, hadj⟩ := ofLists_ok hloop hsymm
  have hlen : lists.length = n := by simp [hlists]
  refine ⟨g, ?_, by rw [← hlen]; exact hfresh, fun i => by rw [hadj, hget]⟩
  unfold ofEdges
  split
  · rename_i i j hfound
    have hout := List.find?_some hfound
    obtain ⟨hi, hj⟩ := hrange (i, j) (List.mem_of_find?_eq_some hfound)
    simp [hi, hj] at hout
  · exact hok

/-- Two nodes are joined in it by an edge that is listed in either orientation, unless it is a
loop. -/
theorem ofEdges_ok {edges : List (Nat × Nat)} (hrange : ∀ e ∈ edges, e.1 < n ∧ e.2 < n) :
    ∃ g, ofEdges n edges = .ok g ∧ Fresh n g ∧
      ∀ i j, j ∈ g.adjacent i ↔ i ≠ j ∧ ((i, j) ∈ edges ∨ (j, i) ∈ edges) := by
  obtain ⟨g, hok, hfresh, hadj⟩ := ofEdges_lists hrange
  exact ⟨g, hok, hfresh, fun i j => by rw [hadj, List.mem_eraseDups, mem_filterMap_across]⟩

/-- Edges with an end that is no node make none. -/
theorem range_of_ofEdges {edges : List (Nat × Nat)} (h : ofEdges n edges = .ok g) :
    ∀ e ∈ edges, e.1 < n ∧ e.2 < n := by
  unfold ofEdges at h
  split at h
  · simp at h
  · rename_i hnone
    intro e he
    have := List.find?_eq_none.mp hnone e he
    simpa using this

end EliminationOrder.EliminationGraph

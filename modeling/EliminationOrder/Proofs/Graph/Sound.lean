/-
What holds of every elimination graph in use.

`Sound` joins the invariant of the nodes with that of the scratch marker.  The lemmas
here read it: which nodes a list can name, when the checked accessors answer, and what
the count of active nodes counts.  The last group says what writing one node does to
the view of all nodes, which is all that later modules need to know about the array.
-/
import EliminationOrder.Graph.Eliminate
import EliminationOrder.Proofs.Marker

namespace EliminationOrder.EliminationGraph

variable {g g' : EliminationGraph} {i j n : Nat}

/-- The nodes satisfy the invariant, and the marker can be trusted. -/
structure Sound (g : EliminationGraph) : Prop where
  valid : g.Valid
  ready : Marker.Ready g.nnodes g.marker

/-! ### Nodes and their lists -/

theorem isActive_iff : g.isActive i = true ↔ ∃ ns, g.nodes[i]? = some (.active ns) := by
  unfold isActive
  cases h : g.nodes[i]? with
  | none => simp
  | some node => cases node <;> simp [Node.isActive]

theorem adjacent_of_active {ns : List Nat} (h : g.nodes[i]? = some (.active ns)) :
    g.adjacent i = ns := by
  simp [adjacent, h, Node.neighbors]

theorem lt_of_isActive (h : g.isActive i = true) : i < g.nnodes := by
  obtain ⟨ns, hns⟩ := isActive_iff.mp h
  exact (Array.getElem?_eq_some_iff.mp hns).1

/-- Only an active node is joined to anything. -/
theorem isActive_of_mem (h : j ∈ g.adjacent i) : g.isActive i = true := by
  unfold adjacent at h
  cases hi : g.nodes[i]? with
  | none => simp [hi] at h
  | some node =>
      cases node with
      | active ns => exact isActive_iff.mpr ⟨ns, hi⟩
      | eliminated => simp [hi, Node.neighbors] at h

/-- A node that is gone, or was never there, has an empty list. -/
theorem adjacent_eq_nil (h : g.isActive i = false) : g.adjacent i = [] := by
  refine List.eq_nil_iff_forall_not_mem.mpr fun j hj => ?_
  rw [isActive_of_mem hj] at h
  exact Bool.noConfusion h

theorem activeNeighbors_eq (h : g.isActive i = true) :
    g.activeNeighbors i = .ok (g.adjacent i) := by
  obtain ⟨ns, hns⟩ := isActive_iff.mp h
  rw [adjacent_of_active hns]
  simp [activeNeighbors, hns]

/-- Of any other number the checked list is refused, by the number and the size alone. -/
theorem activeNeighbors_eq_error (h : g.isActive i = false) :
    g.activeNeighbors i = .error
      (if i < g.nnodes then .fault (.nodeGone i) else .outOfRange i g.nnodes) := by
  unfold activeNeighbors
  unfold isActive at h
  by_cases hi : i < g.nodes.size
  · rw [Array.getElem?_eq_getElem hi] at h ⊢
    cases hnode : g.nodes[i] with
    | active ns => simp [hnode, Node.isActive] at h
    | eliminated => simp [nnodes, hi]
  · simp [nnodes, hi]

/-- The checked list of a node that has to be active is only given for an active one. -/
theorem isActive_of_activeNeighbors {ns : List Nat} (h : g.activeNeighbors i = .ok ns) :
    g.isActive i = true := by
  unfold activeNeighbors at h
  split at h
  · rename_i ms hms
    exact isActive_iff.mpr ⟨ms, hms⟩
  · simp at h
  · simp at h

theorem neighbors_eq (h : i < g.nnodes) : g.neighbors i = .ok (g.adjacent i) := by
  simp [neighbors, adjacent, Array.getElem?_eq_getElem (show i < g.nodes.size from h)]

theorem degree_eq (h : i < g.nnodes) : g.degree i = .ok (g.adjacent i).length := by
  rw [degree, neighbors_eq h]
  rfl

theorem isEliminated_eq (h : i < g.nnodes) : g.isEliminated i = .ok !g.isActive i := by
  simp [isEliminated, isActive, Array.getElem?_eq_getElem (show i < g.nodes.size from h)]

/-- Where there is no node, the accessors refuse by the number and the size alone. -/
theorem neighbors_eq_error (h : g.nnodes ≤ i) : g.neighbors i = .error (.outOfRange i g.nnodes) := by
  simp [neighbors, Array.getElem?_eq_none (show g.nodes.size ≤ i from h)]

theorem isEliminated_eq_error (h : g.nnodes ≤ i) :
    g.isEliminated i = .error (.outOfRange i g.nnodes) := by
  simp [isEliminated, Array.getElem?_eq_none (show g.nodes.size ≤ i from h)]

theorem isEliminated_eq_true_iff :
    g.isEliminated i = .ok true ↔ i < g.nnodes ∧ g.isActive i = false := by
  by_cases hi : i < g.nnodes
  · rw [isEliminated_eq hi]
    simp [hi]
  · rw [isEliminated_eq_error (Nat.le_of_not_lt hi)]
    simp [hi]

theorem mem_activeNodes : i ∈ g.activeNodes ↔ g.isActive i = true := by
  simp only [activeNodes, List.mem_filter, List.mem_range, and_iff_right_iff_imp]
  exact lt_of_isActive

/-! ### Reading the invariant -/

namespace Valid

/-- A list names active nodes only. -/
theorem isActive_of_mem (h : g.Valid) (hj : j ∈ g.adjacent i) : g.isActive j = true :=
  EliminationGraph.isActive_of_mem
    (h.symm i (lt_of_isActive (EliminationGraph.isActive_of_mem hj)) j hj)

theorem lt_of_mem (h : g.Valid) (hj : j ∈ g.adjacent i) : j < g.nnodes :=
  lt_of_isActive (h.isActive_of_mem hj)

/-- Being joined goes both ways. -/
theorem mem_comm (h : g.Valid) : j ∈ g.adjacent i ↔ i ∈ g.adjacent j := by
  constructor
  · intro hj
    exact h.symm i (lt_of_isActive (EliminationGraph.isActive_of_mem hj)) j hj
  · intro hi
    exact h.symm j (lt_of_isActive (EliminationGraph.isActive_of_mem hi)) i hi

theorem not_mem_self (h : g.Valid) (i : Nat) : i ∉ g.adjacent i := fun hi =>
  h.loopless i (lt_of_isActive (EliminationGraph.isActive_of_mem hi)) hi

theorem ne_of_mem (h : g.Valid) (hj : j ∈ g.adjacent i) : j ≠ i := by
  rintro rfl
  exact h.not_mem_self _ hj

theorem nodup_adjacent (h : g.Valid) (i : Nat) : (g.adjacent i).Nodup := by
  cases hi : g.isActive i with
  | true => exact h.nodup i (lt_of_isActive hi)
  | false => simp [adjacent_eq_nil hi]

/-- The count is zero just when no node is active. -/
theorem nactive_eq_zero_iff (h : g.Valid) : g.nactive = 0 ↔ ∀ i, g.isActive i = false := by
  rw [← h.counted, Array.countP_eq_zero]
  constructor
  · intro hnone i
    by_contra hc
    obtain ⟨ns, hns⟩ := isActive_iff.mp (by simpa using hc)
    exact hnone _ (Array.mem_of_getElem? hns) rfl
  · intro hnone node hmem
    obtain ⟨i, hi⟩ := Array.mem_iff_getElem?.mp hmem
    have := hnone i
    simp only [isActive, hi] at this
    simp [this]

end Valid

theorem map_isActive_range (g : EliminationGraph) :
    (List.range g.nnodes).map g.isActive = g.nodes.toList.map Node.isActive := by
  refine List.ext_getElem (by simp [nnodes]) ?_
  intro i h₁ h₂
  have hi : i < g.nodes.size := by simpa [nnodes] using h₁
  simp [isActive, hi]

/-- The count is the number of nodes that are active. -/
theorem Valid.nactive_eq_length (hg : g.Valid) : g.nactive = g.activeNodes.length := by
  have hcount : ((List.range g.nnodes).map g.isActive).countP id
      = (g.nodes.toList.map Node.isActive).countP id := by
    rw [map_isActive_range]
  rw [List.countP_map, List.countP_map] at hcount
  rw [← hg.counted, activeNodes, ← List.countP_eq_length_filter, ← Array.countP_toList]
  exact hcount.symm

/-! ### Other scratch marks

Some calls write marks and nothing else.  What they leave is the same graph with another
marker, and everything but the marker reads the same there.
-/

/-- The same nodes with another marker. -/
def withMarker (g : EliminationGraph) (m : Marker) : EliminationGraph :=
  { g with marker := m }

@[simp] theorem nodes_withMarker (m : Marker) : (g.withMarker m).nodes = g.nodes := rfl

@[simp] theorem nnodes_withMarker (m : Marker) : (g.withMarker m).nnodes = g.nnodes := rfl

@[simp] theorem nactive_withMarker (m : Marker) : (g.withMarker m).nactive = g.nactive := rfl

@[simp] theorem adjacent_withMarker (m : Marker) : (g.withMarker m).adjacent = g.adjacent := rfl

@[simp] theorem isActive_withMarker (m : Marker) : (g.withMarker m).isActive = g.isActive := rfl

@[simp] theorem activeNodes_withMarker (m : Marker) :
    (g.withMarker m).activeNodes = g.activeNodes := rfl

theorem Sound.withMarker (hg : g.Sound) {m : Marker} (hm : Marker.Ready g.nnodes m) :
    (g.withMarker m).Sound :=
  ⟨⟨hg.valid.counted, hg.valid.loopless, hg.valid.nodup, hg.valid.symm⟩, hm⟩

/-! ### Writing one node

`g'` is `g` with the node at `n` replaced, whatever became of the count and the marker.
-/

section Write

variable {node : Node} (hnodes : g'.nodes = g.nodes.setIfInBounds n node) (hn : n < g.nnodes)

include hnodes

theorem nnodes_write : g'.nnodes = g.nnodes := by
  simp [nnodes, hnodes]

include hn

theorem adjacent_write (i : Nat) :
    g'.adjacent i = if i = n then node.neighbors else g.adjacent i := by
  unfold adjacent
  rw [hnodes]
  by_cases hi : i = n
  · subst hi
    simp [Array.getElem?_setIfInBounds_self_of_lt (show i < g.nodes.size from hn)]
  · simp [hi, Array.getElem?_setIfInBounds_ne (fun hc : n = i => hi hc.symm)]

theorem isActive_write (i : Nat) :
    g'.isActive i = if i = n then node.isActive else g.isActive i := by
  unfold isActive
  rw [hnodes]
  by_cases hi : i = n
  · subst hi
    simp [Array.getElem?_setIfInBounds_self_of_lt (show i < g.nodes.size from hn)]
  · simp [hi, Array.getElem?_setIfInBounds_ne (fun hc : n = i => hi hc.symm)]

/-- The count changes with the one node, here one that was active. -/
theorem countP_write (hactive : g.isActive n = true) :
    g'.nodes.countP Node.isActive + 1
      = g.nodes.countP Node.isActive + if node.isActive then 1 else 0 := by
  obtain ⟨ns, hns⟩ := isActive_iff.mp hactive
  have hlt : n < g.nodes.size := hn
  have hget : g.nodes[n] = .active ns := (Array.getElem?_eq_some_iff.mp hns).2
  have hpos : 0 < g.nodes.countP Node.isActive :=
    Array.countP_pos_iff.mpr ⟨_, Array.mem_of_getElem? hns, rfl⟩
  rw [hnodes, Array.setIfInBounds, dif_pos hlt, Array.countP_set hlt, hget]
  simp only [Node.isActive, if_true]
  omega

end Write

end EliminationOrder.EliminationGraph

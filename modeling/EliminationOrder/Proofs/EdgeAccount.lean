/-
The account of edges.

An elimination deletes the edges of its node and creates those that were missing between
its neighbors.  So the edges that are left and the degree of the node are together the
edges there were and the edges created (`Eliminated.card_edges`).  Degrees rise and fall
while nodes are eliminated, but these balances add up, and for any list of eliminations
that answers the degrees and the edges left are what there was and what was created
(`degreesAlong_ok`).  A whole order leaves no edge, which makes the degrees it meets the
edges of the graph and the fill of the order, and nothing else.
-/
import EliminationOrder.Proofs.FillPaths

namespace EliminationOrder.EliminationGraph

variable {g g' : EliminationGraph} {n k i j : Nat} {p : List Nat}

/-! ### Edges -/

/-- The edges, each as a pair with its lower end first. -/
def edges (g : EliminationGraph) : Finset (Nat × Nat) :=
  (Finset.range g.nnodes ×ˢ Finset.range g.nnodes).filter fun e =>
    e.1 < e.2 ∧ e.2 ∈ g.adjacent e.1

/-- The edges that end in `n`. -/
def edgesAt (g : EliminationGraph) (n : Nat) : Finset (Nat × Nat) :=
  g.edges.filter fun e => e.1 = n ∨ e.2 = n

theorem mem_edges (hg : g.Valid) : (i, j) ∈ g.edges ↔ i < j ∧ j ∈ g.adjacent i := by
  simp only [edges, Finset.mem_filter, Finset.mem_product, Finset.mem_range, and_iff_right_iff_imp]
  intro h
  exact ⟨lt_of_isActive (isActive_of_mem h.2), hg.lt_of_mem h.2⟩

theorem edgesAt_subset (g : EliminationGraph) (n : Nat) : g.edgesAt n ⊆ g.edges :=
  Finset.filter_subset _ _

/-- Where no node is active there is no edge. -/
theorem edges_eq_empty (hg : g.Valid) (hnone : ∀ i, g.isActive i = false) : g.edges = ∅ := by
  refine Finset.eq_empty_iff_forall_notMem.mpr ?_
  rintro ⟨i, j⟩ hmem
  rw [mem_edges hg, adjacent_eq_nil (hnone i)] at hmem
  exact List.not_mem_nil hmem.2

/-- **A node has as many edges as neighbors.** -/
theorem card_edgesAt (hg : g.Valid) (n : Nat) : (g.edgesAt n).card = (g.adjacent n).length := by
  -- An edge at `n` is told by its other end.
  have himage : g.edgesAt n = (g.adjacent n).toFinset.image fun m => (min n m, max n m) := by
    ext ⟨i, j⟩
    simp only [edgesAt, Finset.mem_filter, mem_edges hg, Finset.mem_image, List.mem_toFinset,
      Prod.mk.injEq]
    constructor
    · intro h
      obtain ⟨⟨hlt, hmem⟩, rfl | rfl⟩ := h
      · exact ⟨j, hmem, by omega, by omega⟩
      · exact ⟨i, hg.mem_comm.mp hmem, by omega, by omega⟩
    · intro h
      obtain ⟨m, hmem, rfl, rfl⟩ := h
      have hne := hg.ne_of_mem hmem
      rcases Nat.lt_or_gt_of_ne hne with hlt | hlt
      · rw [Nat.min_eq_right hlt.le, Nat.max_eq_left hlt.le]
        exact ⟨⟨hlt, hg.mem_comm.mp hmem⟩, Or.inr rfl⟩
      · rw [Nat.min_eq_left hlt.le, Nat.max_eq_right hlt.le]
        exact ⟨⟨hlt, hmem⟩, Or.inl rfl⟩
  rw [himage, Finset.card_image_of_injective _ (injective_ordered n),
    List.toFinset_card_of_nodup (hg.nodup_adjacent n)]

/-! ### One elimination -/

/-- What is left are the edges elsewhere and those that were missing between the neighbors. -/
theorem Eliminated.edges_eq (h : Eliminated g n g') (hg : g.Valid) :
    g'.edges = (g.edges \ g.edgesAt n) ∪ unjoinedPairs g.adjacent (g.adjacent n).toFinset := by
  ext ⟨i, j⟩
  simp only [mem_edges h.sound.valid, h.mem_adjacent hg, Finset.mem_union, Finset.mem_sdiff,
    edgesAt, Finset.mem_filter, mem_edges hg, mem_unjoinedPairs, List.mem_toFinset]
  constructor
  · intro hnew
    obtain ⟨hlt, hin, hjn, -, hold | hboth⟩ := hnew
    · exact Or.inl ⟨⟨hlt, hold⟩, fun hc => by omega⟩
    · -- Two neighbors may have been joined before, which makes the edge an old one.
      by_cases hold : j ∈ g.adjacent i
      · exact Or.inl ⟨⟨hlt, hold⟩, fun hc => by omega⟩
      · exact Or.inr ⟨hboth.1, hboth.2, hlt, hold⟩
  · intro hnew
    rcases hnew with ⟨⟨hlt, hold⟩, hnot⟩ | ⟨hni, hnj, hlt, -⟩
    · have hne : ¬ (i = n ∨ j = n) := fun hc => hnot ⟨⟨hlt, hold⟩, hc⟩
      exact ⟨hlt, fun hc => hne (Or.inl hc), fun hc => hne (Or.inr hc), hlt.ne, Or.inl hold⟩
    · exact ⟨hlt, hg.ne_of_mem hni, hg.ne_of_mem hnj, hlt.ne, Or.inr ⟨hni, hnj⟩⟩

/-- **Edges left and the degree are the edges there were and the edges created.** -/
theorem Eliminated.card_edges (h : Eliminated g n g') (hg : g.Valid) :
    g'.edges.card + (g.adjacent n).length = g.edges.card + g.missing n := by
  have hdisjoint : Disjoint (g.edges \ g.edgesAt n)
      (unjoinedPairs g.adjacent (g.adjacent n).toFinset) := by
    rw [Finset.disjoint_left]
    rintro ⟨i, j⟩ hold hnew
    exact (mem_unjoinedPairs.mp hnew).2.2.2 ((mem_edges hg).mp (Finset.mem_sdiff.mp hold).1).2
  have hsplit := Finset.card_sdiff_add_card_eq_card (g.edgesAt_subset n)
  rw [h.edges_eq hg, Finset.card_union_of_disjoint hdisjoint, ← missing_eq_card hg,
    ← card_edgesAt hg, ← hsplit]
  omega

/-! ### Many eliminations -/

/-- The degrees of the nodes of a list, each just before it is eliminated after those ahead of it. -/
def degreesAlong (g : EliminationGraph) : List Nat → Outcome (List Nat)
  | [] => .ok []
  | n :: p => do
    let d ← g.degree n
    let (_, g') ← g.eliminate n
    let ds ← g'.degreesAlong p
    return d :: ds

/-- **The account balances over any eliminations.** -/
theorem degreesAlong_ok (p : List Nat) :
    ∀ {g : EliminationGraph} {k : Nat}, g.Sound → g.eliminateAll p = .ok (k, g') →
      ∃ ds, g.degreesAlong p = .ok ds ∧ ds.sum + g'.edges.card = g.edges.card + k := by
  induction p with
  | nil =>
      intro g k _ h
      obtain ⟨rfl, rfl⟩ := Outcome.ok_pair_inj.mp h
      exact ⟨[], rfl, by simp⟩
  | cons n p ih =>
      intro g k hg h
      obtain ⟨added, g₁, more, helim, hall, rfl⟩ := eliminateAll_cons h
      have hn := isActive_of_eliminate helim
      obtain ⟨rfl, hstep⟩ := missing_of_eliminate hg helim
      obtain ⟨ds, hds, hbalance⟩ := ih hstep.sound hall
      refine ⟨(g.adjacent n).length :: ds, ?_, ?_⟩
      · simp [degreesAlong, degree_eq (lt_of_isActive hn), helim, hds]
      · have := hstep.card_edges hg.valid
        rw [List.sum_cons]
        omega

/--
**The degrees of an order are the edges and the fill.**  Let all nodes of a freshly built
graph be eliminated, in any order.  The degrees that the nodes have just before they go
add up to the number of edges of the graph and the number of edges created on the way.
-/
theorem degrees_sum_to_edges_and_fill (hg : Built g) (hp : p.Perm (List.range g.nnodes)) :
    ∃ ds fill g', g.degreesAlong p = .ok ds ∧ g.fillIn p = .ok (fill, g') ∧
      ds.sum = g.edges.card + fill := by
  have hfresh := hg.fresh
  obtain ⟨fill, g', hfill, hall, hrun⟩ := hfresh.fillIn_ok hp
  obtain ⟨ds, hds, hbalance⟩ := degreesAlong_ok p hfresh.sound hall
  have hnone : ∀ i, g'.isActive i = false := by
    intro i
    by_contra hc
    obtain ⟨hgone, hi⟩ := (hrun.isActive_iff i).mp (by simpa using hc)
    exact hgone (hfresh.mem_order hp i hi)
  rw [edges_eq_empty (hrun.sound hfresh.sound).valid hnone] at hbalance
  exact ⟨ds, fill, g', hds, hfill, by simpa using hbalance⟩

/-- On a path of four nodes, taking the inner ones first meets five edges, two of them created. -/
theorem degrees_sum_fourPath :
    Built fourPath ∧ [1, 2, 0, 3].Perm (List.range fourPath.nnodes) ∧
      fourPath.degreesAlong [1, 2, 0, 3] = .ok [2, 2, 1, 0] ∧
      ∃ fill g', fourPath.fillIn [1, 2, 0, 3] = .ok (fill, g') ∧
        [2, 2, 1, 0].sum = fourPath.edges.card + fill ∧ fourPath.edges.card = 3 := by
  have hperm : [1, 2, 0, 3].Perm (List.range fourPath.nnodes) := by decide
  have hdegrees : fourPath.degreesAlong [1, 2, 0, 3] = .ok [2, 2, 1, 0] := by rfl
  obtain ⟨ds, fill, g', hds, hfill, hsum⟩ := degrees_sum_to_edges_and_fill built_fourPath hperm
  rw [hdegrees, Except.ok.injEq] at hds
  subst hds
  exact ⟨built_fourPath, hperm, hdegrees, fill, g', hfill, hsum, by decide⟩

end EliminationOrder.EliminationGraph

/-
The filled pattern of an order, which the order does not fill any further.

`edgesAlong` collects the edges of a graph and of everything that is left of it while its
nodes are eliminated.  This is the pattern that a factorization allocates beforehand, so
it must be closed: as the edges of a graph, eliminated in the same order, it creates none.

The second elimination is not followed step by step.  What an order creates no edge on is
told by `PerfectOrder`, and that the pattern makes the order perfect is seen along the
first elimination, `FilledTo` being what is kept.  The nodes that the first of them is
joined to are joined to each other once it is gone, so the rest of the pattern has those
edges; and edges that come up later do not end in a node that has left.
-/
import EliminationOrder.Proofs.EdgeAccount
import EliminationOrder.Proofs.Ordering.PerfectElimination

namespace EliminationOrder

/-! ### Sets of pairs -/

/-- The pair is in the set, one way round or the other. -/
def Paired (pairs : Finset (Nat × Nat)) (i j : Nat) : Prop :=
  (i, j) ∈ pairs ∨ (j, i) ∈ pairs

theorem paired_union {s t : Finset (Nat × Nat)} {i j : Nat} :
    Paired (s ∪ t) i j ↔ Paired s i j ∨ Paired t i j := by
  unfold Paired
  rw [Finset.mem_union, Finset.mem_union]
  tauto

namespace EliminationGraph

variable {g g' g₁ : EliminationGraph} {n k i j : Nat} {p : List Nat} {pairs : Finset (Nat × Nat)}

theorem paired_edges (hg : g.Valid) : Paired g.edges i j ↔ g.Joined i j := by
  unfold Paired Joined
  rw [mem_edges hg, mem_edges hg, hg.mem_comm (i := j)]
  constructor
  · intro h
    rcases h with h | h
    · exact h.2
    · exact h.2
  · intro h
    have hne := hg.ne_of_mem h
    rcases Nat.lt_or_gt_of_ne hne with hlt | hlt
    · exact Or.inr ⟨hlt, h⟩
    · exact Or.inl ⟨hlt, h⟩

/-! ### What the pattern of an order is like -/

/-- The edges of `g` with `k` more pairs of its active nodes, on which the order is perfect. -/
structure FilledTo (g : EliminationGraph) (p : List Nat) (k : Nat) (pairs : Finset (Nat × Nat)) :
    Prop where
  edges_subset : g.edges ⊆ pairs
  active : ∀ e ∈ pairs, e.1 < e.2 ∧ g.isActive e.1 = true ∧ g.isActive e.2 = true
  card : pairs.card = g.edges.card + k
  perfect : PerfectOrder (Paired pairs) p

theorem filledTo_nil (hg : g.Valid) : FilledTo g [] 0 g.edges := by
  refine ⟨Finset.Subset.refl _, ?_, rfl, trivial⟩
  rintro ⟨i, j⟩ he
  obtain ⟨hlt, hmem⟩ := (mem_edges hg).mp he
  exact ⟨hlt, isActive_of_mem hmem, hg.isActive_of_mem hmem⟩

namespace FilledTo

theorem isActive_left (h : FilledTo g p k pairs) (hij : Paired pairs i j) : g.isActive i = true := by
  rcases hij with hij | hji
  · exact (h.active _ hij).2.1
  · exact (h.active _ hji).2.2

theorem ne_of_paired (h : FilledTo g p k pairs) (hij : Paired pairs i j) : i ≠ j := by
  rcases hij with hij | hji
  · exact (h.active _ hij).1.ne
  · exact (h.active _ hji).1.ne'

theorem paired_of_joined (h : FilledTo g p k pairs) (hg : g.Valid) (hij : g.Joined i j) :
    Paired pairs i j :=
  ((paired_edges hg).mpr hij).imp (fun hmem => h.edges_subset hmem) fun hmem => h.edges_subset hmem

section Step

variable (hg : g.Valid) (hstep : Eliminated g n g₁) (h : FilledTo g₁ p k pairs)

include hstep h

/-- No pair of the rest has the node that is gone. -/
theorem not_paired (j : Nat) : ¬ Paired pairs n j := by
  intro hc
  have hactive := h.isActive_left hc
  simp [hstep.isActive] at hactive

include hg

/-- To the rest of the pattern, the graph before adds the edges of the node and no others. -/
theorem union_eq : g.edges ∪ pairs = g.edgesAt n ∪ pairs := by
  have hrest : g.edges \ g.edgesAt n ⊆ pairs := by
    refine Finset.Subset.trans ?_ h.edges_subset
    rw [hstep.edges_eq hg]
    exact Finset.subset_union_left
  calc g.edges ∪ pairs
      = (g.edgesAt n ∪ g.edges \ g.edgesAt n) ∪ pairs := by
        rw [Finset.union_sdiff_of_subset (g.edgesAt_subset n)]
    _ = g.edgesAt n ∪ pairs := by
        rw [Finset.union_assoc, Finset.union_eq_right.mpr hrest]

/-- **No pair is added twice.** -/
theorem card_union : (g.edges ∪ pairs).card = g.edges.card + (g.missing n + k) := by
  have hdisjoint : Disjoint (g.edgesAt n) pairs := by
    rw [Finset.disjoint_left]
    rintro ⟨i, j⟩ hat hlater
    rcases (Finset.mem_filter.mp hat).2 with rfl | rfl
    · exact h.not_paired hstep j (Or.inl hlater)
    · exact h.not_paired hstep i (Or.inr hlater)
  have hbalance := hstep.card_edges hg
  rw [union_eq hg hstep h, Finset.card_union_of_disjoint hdisjoint, card_edgesAt hg, h.card]
  omega

/-- **The order with the node in front is perfect on the whole pattern.** -/
theorem perfect_cons (hn : n ∉ p) : PerfectOrder (Paired (g.edges ∪ pairs)) (n :: p) := by
  have hfirst : ∀ a, Paired (g.edges ∪ pairs) n a → g.Joined n a := by
    intro a ha
    rcases paired_union.mp ha with hedge | hlater
    · exact (paired_edges hg).mp hedge
    · exact absurd hlater (h.not_paired hstep a)
  refine ⟨?_, h.perfect.congr ?_⟩
  · -- Two neighbors of the node are joined once it is gone.
    intro a b _ _ hna hnb hab
    have hna := hfirst a hna
    have hnb := hfirst b hnb
    have hjoined : g₁.Joined a b :=
      (hstep.mem_adjacent hg).mpr ⟨hg.ne_of_mem hna, hg.ne_of_mem hnb, hab, Or.inr ⟨hna, hnb⟩⟩
    exact paired_union.mpr (Or.inr (h.paired_of_joined hstep.sound.valid hjoined))
  · -- Edges that do not end in the node outlast it, so the rest has them already.
    intro a ha b hb
    have han : a ≠ n := fun hc => hn (hc ▸ ha)
    have hbn : b ≠ n := fun hc => hn (hc ▸ hb)
    rw [paired_union, paired_edges hg]
    constructor
    · exact Or.inr
    · intro hab
      rcases hab with hab | hab
      · have hjoined : g₁.Joined a b :=
          (hstep.mem_adjacent hg).mpr ⟨han, hbn, (hg.ne_of_mem hab).symm, Or.inl hab⟩
        exact h.paired_of_joined hstep.sound.valid hjoined
      · exact hab

/-- What holds of the pattern of the rest holds of the whole pattern. -/
theorem cons (hn : n ∉ p) : FilledTo g (n :: p) (g.missing n + k) (g.edges ∪ pairs) := by
  refine ⟨Finset.subset_union_left, ?_, h.card_union hg hstep, h.perfect_cons hg hstep hn⟩
  intro e he
  rcases Finset.mem_union.mp he with hedge | hlater
  · exact (filledTo_nil hg).active e hedge
  · obtain ⟨hlt, hi, hj⟩ := h.active e hlater
    rw [hstep.isActive, Bool.and_eq_true] at hi hj
    exact ⟨hlt, hi.2, hj.2⟩

end Step

end FilledTo

/-! ### The pattern along an elimination -/

/-- The edges of a graph and of all that is left of it while the nodes of a list are eliminated. -/
def edgesAlong (g : EliminationGraph) : List Nat → Outcome (Finset (Nat × Nat))
  | [] => .ok g.edges
  | n :: p => do
    let (_, g') ← g.eliminate n
    let pairs ← g'.edgesAlong p
    return g.edges ∪ pairs

theorem edgesAlong_ok (p : List Nat) :
    ∀ {g : EliminationGraph} {k : Nat}, g.Sound → p.Nodup → g.eliminateAll p = .ok (k, g') →
      ∃ pairs, g.edgesAlong p = .ok pairs ∧ FilledTo g p k pairs := by
  induction p with
  | nil =>
      intro g k hg _ h
      obtain ⟨rfl, -⟩ := Outcome.ok_pair_inj.mp h
      exact ⟨g.edges, rfl, filledTo_nil hg.valid⟩
  | cons n p ih =>
      intro g k hg hp h
      obtain ⟨hn, hp'⟩ := List.nodup_cons.mp hp
      obtain ⟨added, g₁, more, helim, hall, rfl⟩ := eliminateAll_cons h
      obtain ⟨rfl, hstep⟩ := missing_of_eliminate hg helim
      obtain ⟨pairs, hpairs, hfilled⟩ := ih hstep.sound hp' hall
      exact ⟨g.edges ∪ pairs, by simp [edgesAlong, helim, hpairs],
        hfilled.cons hg.valid hstep hn⟩

/-! ### The pattern as a graph -/

/-- The pairs of a pattern make a graph, with them as its edges. -/
theorem FilledTo.ofEdges_ok {size : Nat} (h : FilledTo g p k pairs) (hg : Fresh size g)
    {edges : List (Nat × Nat)} (hedges : edges.toFinset = pairs) :
    ∃ g', ofEdges size edges = .ok g' ∧ Fresh size g' ∧ g'.edges = pairs ∧
      g'.Joined = Paired pairs := by
  have hmem : ∀ e, e ∈ edges ↔ e ∈ pairs := by
    intro e
    rw [← hedges, List.mem_toFinset]
  have hrange : ∀ e ∈ edges, e.1 < size ∧ e.2 < size := by
    intro e he
    obtain ⟨-, hi, hj⟩ := h.active e ((hmem e).mp he)
    rw [hg.isActive, decide_eq_true_eq] at hi hj
    exact ⟨hi, hj⟩
  obtain ⟨g', hok, hfresh, hadj⟩ := EliminationGraph.ofEdges_ok hrange
  have hjoined : ∀ i j, g'.Joined i j ↔ Paired pairs i j := by
    intro i j
    unfold Joined
    rw [hadj, hmem, hmem]
    constructor
    · intro hij
      exact hij.2
    · intro hij
      exact ⟨h.ne_of_paired hij, hij⟩
  refine ⟨g', hok, hfresh, ?_, by funext i j; exact propext (hjoined i j)⟩
  ext ⟨i, j⟩
  rw [mem_edges hfresh.sound.valid]
  constructor
  · intro hij
    rcases (hjoined i j).mp hij.2 with hmem | hmem
    · exact hmem
    · have := (h.active _ hmem).1
      omega
  · intro hmem
    exact ⟨(h.active _ hmem).1, (hjoined i j).mpr (Or.inl hmem)⟩

/--
**The filled pattern is closed.**  Let all nodes of a freshly built graph be eliminated, in
any order, and collect the edges of the graph with those of all that is left of it on the
way.  There are as many of them as the graph has edges and the order creates.  The graph
that has them for its edges exists, however they are listed, and the same order creates no
edge on it.
-/
theorem filledPattern_closed (hg : Built g) (hp : p.Perm (List.range g.nnodes)) :
    ∃ pairs fill g', g.edgesAlong p = .ok pairs ∧ g.fillIn p = .ok (fill, g') ∧
      pairs.card = g.edges.card + fill ∧
      ∀ edges : List (Nat × Nat), edges.toFinset = pairs →
        ∃ h h', ofEdges g.nnodes edges = .ok h ∧ h.edges = pairs ∧ h.fillIn p = .ok (0, h') := by
  have hfresh := hg.fresh
  have hnodup : p.Nodup := hp.nodup_iff.mpr List.nodup_range
  obtain ⟨fill, g', hfill, hall, -⟩ := hfresh.fillIn_ok hp
  obtain ⟨pairs, hpairs, hfilled⟩ := edgesAlong_ok p hfresh.sound hnodup hall
  refine ⟨pairs, fill, g', hpairs, hfill, hfilled.card, ?_⟩
  intro edges hedges
  obtain ⟨h, hok, hfresh', hsame, hjoined⟩ := hfilled.ofEdges_ok hfresh hedges
  obtain ⟨k, h', hcount, -, hrun⟩ := hfresh'.fillIn_ok hp
  have hzero : k = 0 := (hrun.total_eq_zero_iff hfresh'.sound hnodup (hfresh'.mem_order hp)).mpr
    (hjoined ▸ hfilled.perfect)
  rw [hzero] at hcount
  exact ⟨h, h', hok, hsame, hcount⟩

/-- On a path of four nodes, taking the inner ones first adds two pairs to the three edges. -/
theorem filledPattern_fourPath :
    let edges := [(0, 3), (2, 3), (0, 1), (1, 2), (0, 2), (0, 1)]
    Built fourPath ∧ [1, 2, 0, 3].Perm (List.range fourPath.nnodes) ∧
      fourPath.edgesAlong [1, 2, 0, 3] = .ok edges.toFinset ∧
      edges.toFinset.card = 5 ∧ (∃ g', fourPath.fillIn [1, 2, 0, 3] = .ok (2, g')) ∧
      ∃ h h', ofEdges 4 edges = .ok h ∧ h.edges = edges.toFinset ∧
        h.fillIn [1, 2, 0, 3] = .ok (0, h') := by
  intro edges
  have hperm : [1, 2, 0, 3].Perm (List.range fourPath.nnodes) := by decide
  have hcollected : fourPath.edgesAlong [1, 2, 0, 3] = .ok edges.toFinset :=
    Outcome.toOption_eq_some.mp (by decide +kernel)
  have hfive : edges.toFinset.card = 5 := by decide
  obtain ⟨pairs, fill, g', hpairs, hfill, hcard, hclosed⟩ :=
    filledPattern_closed built_fourPath hperm
  obtain rfl : pairs = edges.toFinset := Except.ok.inj (hpairs.symm.trans hcollected)
  have hthree : fourPath.edges.card = 3 := by decide
  obtain rfl : fill = 2 := by omega
  exact ⟨built_fourPath, hperm, hpairs, hfive, ⟨g', hfill⟩, hclosed edges rfl⟩

end EliminationGraph

end EliminationOrder

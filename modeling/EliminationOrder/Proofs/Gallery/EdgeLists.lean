/-
An edge list makes one graph, by either way.

A list of pairs can be turned into a graph at once, or into the matrix of its edges, whose
graph is then taken.  The second way goes through triplets, columns and an index of the
rows, and merges repetitions by adding: an edge listed three times is a three in the matrix.
What matters is which positions the triplets of the edges name, and how often
(`valuesAt_edges`), since all their values are ones.  As long as ones do not add up to
zero, the pattern of the matrix is then the set of listed pairs, and so is the graph.

The ways differ in what they refuse.  A graph looks at every end, a matrix passes over
loops before it looks.
-/
import EliminationOrder.Gallery
import EliminationOrder.Proofs.Graph.Reachable
import EliminationOrder.Proofs.Matrix.Triplets

namespace EliminationOrder

/-- How often a pair is listed, in either orientation. -/
def timesListed (edges : List (Nat × Nat)) (i j : Nat) : Nat :=
  edges.countP fun e => e = (i, j) ∨ e = (j, i)

theorem timesListed_comm (edges : List (Nat × Nat)) (i j : Nat) :
    timesListed edges i j = timesListed edges j i := by
  simp only [timesListed, or_comm]

theorem timesListed_pos_iff {edges : List (Nat × Nat)} {i j : Nat} :
    0 < timesListed edges i j ↔ (i, j) ∈ edges ∨ (j, i) ∈ edges := by
  rw [timesListed, List.countP_pos_iff]
  constructor
  · intro h
    obtain ⟨e, he, hpair⟩ := h
    rcases of_decide_eq_true hpair with rfl | rfl
    · exact Or.inl he
    · exact Or.inr he
  · intro h
    rcases h with h | h
    · exact ⟨_, h, decide_eq_true (Or.inl rfl)⟩
    · exact ⟨_, h, decide_eq_true (Or.inr rfl)⟩

/-- Edges make no graph just when one of their ends is no node. -/
theorem EliminationGraph.ofEdges_faults_iff {n : Nat} {edges : List (Nat × Nat)} :
    (∃ f, EliminationGraph.ofEdges n edges = .error (.fault f)) ↔
      ∃ e ∈ edges, n ≤ e.1 ∨ n ≤ e.2 := by
  constructor
  · intro h
    obtain ⟨f, hf⟩ := h
    by_contra hnone
    have hrange : ∀ e ∈ edges, e.1 < n ∧ e.2 < n := by
      intro e he
      constructor
      · exact Nat.lt_of_not_le fun hle => hnone ⟨e, he, Or.inl hle⟩
      · exact Nat.lt_of_not_le fun hle => hnone ⟨e, he, Or.inr hle⟩
    obtain ⟨g, hok, -⟩ := ofEdges_ok hrange
    exact absurd (hok.symm.trans hf) (by simp)
  · intro h
    obtain ⟨e, he, hout⟩ := h
    unfold EliminationGraph.ofEdges
    split
    · exact ⟨_, rfl⟩
    · next hnone =>
        have hin := List.find?_eq_none.mp hnone e he
        simp at hin
        omega

namespace Gallery

variable {α : Type} [Entry α] {m i j : Nat} {edges : List (Nat × Nat)}

/-- The sum of so many ones. -/
def ones (k : Nat) : α :=
  (List.replicate k 1).foldl (· + ·) 0

/-! ### Where the ones stand -/

/-- The triplets of the matrix of an edge list. -/
def triplets (m : Nat) (edges : List (Nat × Nat)) : List (Nat × Nat × α) :=
  (List.range m).map (fun i => (i, i, 1)) ++ edges.flatMap edgeTriplets

/-- The diagonal is listed once. -/
theorem valuesAt_diagonal (hi : i < m) :
    valuesAt i i ((List.range m).map fun i => (i, i, (1 : α))) = [1] := by
  have hone : (List.range m).filter (· = i) = [i] := by
    rw [List.filter_eq, List.count_eq_one_of_mem List.nodup_range (List.mem_range.mpr hi)]
    rfl
  have hfilter : ((fun t : Nat × Nat × α => decide (t.1 = i ∧ t.2.1 = i)) ∘ fun i => (i, i, 1))
      = fun k => decide (k = i) := by
    funext k
    simp
  rw [valuesAt, List.filter_map, hfilter, hone]
  rfl

theorem valuesAt_diagonal_of_ne (hij : i ≠ j) :
    valuesAt i j ((List.range m).map fun i => (i, i, (1 : α))) = [] := by
  rw [valuesAt_eq_nil_iff]
  intro t ht hpos
  obtain ⟨k, -, rfl⟩ := List.mem_map.mp ht
  exact hij (hpos.1.symm.trans hpos.2)

theorem valuesAt_edgeTriplets (hij : i ≠ j) (e : Nat × Nat) :
    valuesAt i j (edgeTriplets e : List (Nat × Nat × α))
      = List.replicate (if e = (i, j) ∨ e = (j, i) then 1 else 0) 1 := by
  obtain ⟨a, b⟩ := e
  rw [edgeTriplets]
  by_cases hloop : a = b
  · subst hloop
    have hne : ¬ ((a, a) = (i, j) ∨ (a, a) = (j, i)) := by grind
    rw [if_pos rfl, if_neg hne]
    rfl
  · rw [if_neg hloop]
    by_cases hsame : a = i ∧ b = j
    · obtain ⟨rfl, rfl⟩ := hsame
      simp [valuesAt, Ne.symm hij]
    · by_cases hturned : a = j ∧ b = i
      · obtain ⟨rfl, rfl⟩ := hturned
        simp [valuesAt, hij]
      · have hne : ¬ ((a, b) = (i, j) ∨ (a, b) = (j, i)) := by grind
        rw [if_neg hne]
        refine valuesAt_eq_nil_iff.mpr ?_
        simp only [List.mem_cons, List.not_mem_nil, or_false]
        rintro t (rfl | rfl) hpos
        · exact hsame hpos
        · exact hturned ⟨hpos.2, hpos.1⟩

/-- **Off the diagonal there is a one for each time the pair is listed.** -/
theorem valuesAt_edges (hij : i ≠ j) (edges : List (Nat × Nat)) :
    valuesAt i j (edges.flatMap edgeTriplets : List (Nat × Nat × α))
      = List.replicate (timesListed edges i j) 1 := by
  induction edges with
  | nil => rfl
  | cons e edges ih =>
      rw [List.flatMap_cons, valuesAt_append, valuesAt_edgeTriplets hij, ih,
        List.replicate_append_replicate, timesListed, timesListed, List.countP_cons]
      simp only [decide_eq_true_eq, Nat.add_comm]

/-- Edges leave the diagonal alone. -/
theorem valuesAt_edges_self (i : Nat) (edges : List (Nat × Nat)) :
    valuesAt i i (edges.flatMap edgeTriplets : List (Nat × Nat × α)) = [] := by
  refine valuesAt_eq_nil_iff.mpr fun t ht hpos => ?_
  obtain ⟨e, -, he⟩ := List.mem_flatMap.mp ht
  rw [edgeTriplets] at he
  split at he
  · simp at he
  · next hloop =>
      rcases List.mem_cons.mp he with rfl | he
      · exact hloop (hpos.1.trans hpos.2.symm)
      · obtain rfl := List.mem_singleton.mp he
        exact hloop (hpos.2.trans hpos.1.symm)

theorem sum_triplets_self (hi : i < m) (edges : List (Nat × Nat)) :
    (valuesAt i i (triplets m edges : List (Nat × Nat × α))).foldl (· + ·) 0 = ones 1 := by
  rw [triplets, valuesAt_append, valuesAt_diagonal hi, valuesAt_edges_self]
  rfl

theorem sum_triplets (hij : i ≠ j) (edges : List (Nat × Nat)) :
    (valuesAt i j (triplets m edges : List (Nat × Nat × α))).foldl (· + ·) 0
      = ones (timesListed edges i j) := by
  rw [triplets, valuesAt_append, valuesAt_diagonal_of_ne hij, valuesAt_edges hij]
  rfl

/-! ### Which lists make a matrix -/

/-- A triplet is out of range when it comes of such a pair that is no loop. -/
theorem exists_triplet_iff :
    (∃ t ∈ (triplets m edges : List (Nat × Nat × α)), m ≤ t.1 ∨ m ≤ t.2.1) ↔
      ∃ e ∈ edges, e.1 ≠ e.2 ∧ (m ≤ e.1 ∨ m ≤ e.2) := by
  constructor
  · intro h
    obtain ⟨t, ht, hout⟩ := h
    rcases List.mem_append.mp ht with ht | ht
    · obtain ⟨k, hk, rfl⟩ := List.mem_map.mp ht
      have hk := List.mem_range.mp hk
      dsimp only at hout
      omega
    · obtain ⟨e, he, ht⟩ := List.mem_flatMap.mp ht
      rw [edgeTriplets] at ht
      split at ht
      · simp at ht
      · next hloop =>
          refine ⟨e, he, hloop, ?_⟩
          rcases List.mem_cons.mp ht with rfl | ht
          · exact hout
          · obtain rfl := List.mem_singleton.mp ht
            exact hout.symm
  · intro h
    obtain ⟨e, he, hloop, hout⟩ := h
    refine ⟨(e.1, e.2, 1), List.mem_append_right _ (List.mem_flatMap.mpr ⟨e, he, ?_⟩), hout⟩
    rw [edgeTriplets, if_neg hloop]
    exact List.mem_cons_self

/-- **Only a pair of different ends can be out of range.** -/
theorem ofEdges_faults_iff :
    (∃ f, (Gallery.ofEdges m edges : Outcome (SparseMatrix α)) = .error (.fault f)) ↔
      ∃ e ∈ edges, e.1 ≠ e.2 ∧ (m ≤ e.1 ∨ m ≤ e.2) := by
  rw [← exists_triplet_iff (α := α)]
  constructor
  · intro h
    obtain ⟨f, hf⟩ := h
    by_contra hnone
    have hrange : ∀ t ∈ (triplets m edges : List (Nat × Nat × α)), t.1 < m ∧ t.2.1 < m := by
      intro t ht
      constructor
      · exact Nat.lt_of_not_le fun hle => hnone ⟨t, ht, Or.inl hle⟩
      · exact Nat.lt_of_not_le fun hle => hnone ⟨t, ht, Or.inr hle⟩
    obtain ⟨a, hok, -⟩ := SparseMatrix.ofTriplets_ok hrange
    exact absurd (hok.symm.trans hf) (by simp)
  · exact SparseMatrix.ofTriplets_eq_error

/-! ### The matrix -/

/-- The matrix of an edge list: ones added up wherever a pair is listed, and one on the diagonal. -/
structure CountsEdges (m : Nat) (edges : List (Nat × Nat)) (a : SparseMatrix α) : Prop where
  nrows : a.nrows = m
  ncols : a.ncols = m
  diagonal : ∀ i < m, a.get i i = .ok (ones 1)
  entry : ∀ i j, j < m → i ≠ j → a.get i j = .ok (ones (timesListed edges i j))

theorem ofEdges_ok (hrange : ∀ e ∈ edges, e.1 ≠ e.2 → e.1 < m ∧ e.2 < m) :
    ∃ a : SparseMatrix α, Gallery.ofEdges m edges = .ok a ∧ CountsEdges m edges a := by
  have htriplets : ∀ t ∈ (triplets m edges : List (Nat × Nat × α)), t.1 < m ∧ t.2.1 < m := by
    intro t ht
    by_contra hout
    have hex := exists_triplet_iff.mp ⟨t, ht, by omega⟩
    obtain ⟨e, he, hloop, hlt⟩ := hex
    have := hrange e he hloop
    omega
  obtain ⟨a, hok, hnrows, hncols, hget⟩ := SparseMatrix.ofTriplets_ok htriplets
  refine ⟨a, hok, hnrows, hncols, ?_, ?_⟩
  · intro i hi
    rw [hget i i hi, sum_triplets_self hi]
  · intro i j hj hij
    rw [hget i j hj, sum_triplets hij]

namespace CountsEdges

variable {a : SparseMatrix α}

theorem symm (h : CountsEdges m edges a) (hi : i < m) (hj : j < m) : a.get i j = a.get j i := by
  by_cases hij : i = j
  · rw [hij]
  · rw [h.entry i j hj hij, h.entry j i hi (Ne.symm hij), timesListed_comm]

/-- Where ones do not add up to zero, the pattern is that of the listed pairs. -/
theorem nonzero_iff (h : CountsEdges m edges a)
    (hones : ∀ k, 0 < k → Entry.isZero (ones k : α) = false) (hi : i < m) (hj : j < m)
    (hij : i ≠ j) : (StoredMatrix.sparse a).Nonzero i j ↔ (i, j) ∈ edges ∨ (j, i) ∈ edges := by
  have hzero : Entry.isZero (ones 0 : α) = true := Entry.zero_beq_zero
  have hget : (StoredMatrix.sparse a).get i j = .ok (ones (timesListed edges i j)) :=
    h.entry i j hj hij
  rw [← timesListed_pos_iff,
    StoredMatrix.nonzero_iff (by rw [← h.nrows] at hi; exact hi) (by rw [← h.ncols] at hj; exact hj)
      hget]
  constructor
  · intro hne
    refine Nat.pos_of_ne_zero fun hnone => ?_
    rw [hnone, hzero] at hne
    exact absurd hne (by simp)
  · exact hones _

/-- **The graph of the matrix joins the listed pairs**, and loops are no edges. -/
theorem joined_iff (h : CountsEdges m edges a) (hrange : ∀ e ∈ edges, e.1 < m ∧ e.2 < m)
    (hones : ∀ k, 0 < k → Entry.isZero (ones k : α) = false) :
    (StoredMatrix.sparse a).Joined i j ↔ i ≠ j ∧ ((i, j) ∈ edges ∨ (j, i) ∈ edges) := by
  unfold StoredMatrix.Joined
  refine and_congr_right fun hij => ?_
  by_cases hlt : i < m ∧ j < m
  · rw [h.nonzero_iff hones hlt.1 hlt.2 hij, h.nonzero_iff hones hlt.2 hlt.1 (Ne.symm hij),
      or_comm (a := (j, i) ∈ edges), or_self]
  · have hnrows : (StoredMatrix.sparse a).nrows = m := h.nrows
    have hncols : (StoredMatrix.sparse a).ncols = m := h.ncols
    constructor
    · rintro (hnz | hnz)
      · exact absurd ⟨hnrows ▸ hnz.1, hncols ▸ hnz.2.1⟩ hlt
      · exact absurd ⟨hncols ▸ hnz.2.1, hnrows ▸ hnz.1⟩ hlt
    · rintro (he | he)
      · exact absurd (hrange _ he) hlt
      · exact absurd (hrange _ he).symm hlt

end CountsEdges

/-! ### Both ways -/

/-- **A graph and a matrix can be made of the same edge lists, and the matrix has that graph.**
Pairs that are repeated are added up in the matrix, in either orientation, and merged in the graph;
loops are neither.  Where ones never add up to zero the graph of the matrix is the graph itself.
Ends that are out of range are faults, but a loop only is one for the graph. -/
theorem ofEdges_matrix_and_graph_agree (m : Nat) (edges : List (Nat × Nat)) :
    ((∃ f, EliminationGraph.ofEdges m edges = .error (.fault f)) ↔
      ∃ e ∈ edges, m ≤ e.1 ∨ m ≤ e.2) ∧
    ((∃ f, (Gallery.ofEdges m edges : Outcome (SparseMatrix α)) = .error (.fault f)) ↔
      ∃ e ∈ edges, e.1 ≠ e.2 ∧ (m ≤ e.1 ∨ m ≤ e.2)) ∧
    ((∀ e ∈ edges, e.1 < m ∧ e.2 < m) →
      ∃ (a : SparseMatrix α) (h : EliminationGraph), Gallery.ofEdges m edges = .ok a ∧
        EliminationGraph.ofEdges m edges = .ok h ∧ h.nnodes = m ∧ a.nrows = m ∧ a.ncols = m ∧
        (∀ i < m, ∀ j < m, a.get i j = a.get j i) ∧
        (∀ i < m, a.get i i = .ok (ones 1)) ∧
        ((0 : α) + 1 = 1 → ∀ i < m, a.get i i = .ok 1) ∧
        (∀ i < m, ∀ j < m, i ≠ j → a.get i j = .ok (ones (timesListed edges i j))) ∧
        ((∀ k, 0 < k → Entry.isZero (ones k : α) = false) →
          ∃ g, EliminationGraph.ofMatrix (.sparse a) = .ok g ∧ g.nnodes = m ∧
            ∀ i j, j ∈ g.adjacent i ↔ j ∈ h.adjacent i)) := by
  refine ⟨EliminationGraph.ofEdges_faults_iff, ofEdges_faults_iff, ?_⟩
  intro hrange
  obtain ⟨a, ha, hcounts⟩ := ofEdges_ok (α := α) fun e he _ => hrange e he
  obtain ⟨h, hh, hfresh, hadj⟩ := EliminationGraph.ofEdges_ok hrange
  refine ⟨a, h, ha, hh, hfresh.nnodes, hcounts.nrows, hcounts.ncols,
    fun i hi j hj => hcounts.symm hi hj, hcounts.diagonal, ?_,
    fun i _ j hj hij => hcounts.entry i j hj hij, ?_⟩
  · intro hone i hi
    have hsum : (ones 1 : α) = 1 := hone
    rw [hcounts.diagonal i hi, hsum]
  · intro hones
    have hsquare : (StoredMatrix.sparse a).nrows = (StoredMatrix.sparse a).ncols :=
      hcounts.nrows.trans hcounts.ncols.symm
    obtain ⟨g, hg, hfresh', hadj'⟩ := EliminationGraph.ofMatrix_ok hsquare
    refine ⟨g, hg, hfresh'.nnodes.trans hcounts.nrows, fun i j => ?_⟩
    rw [hadj', hadj, hcounts.joined_iff hrange hones]

/-- Whole numbers without a bound: ones never add up to zero. -/
structure Whole where
  value : Int
deriving DecidableEq

instance : Entry Whole where
  zero := ⟨0⟩
  one := ⟨1⟩
  add x y := ⟨x.value + y.value⟩
  beq x y := decide (x = y)
  ofInt? n := some ⟨n⟩
  zero_beq_zero := by decide

theorem value_ones (k : Nat) : (ones k : Whole).value = k := by
  induction k with
  | zero => rfl
  | succ k ih =>
      rw [ones, List.replicate_succ', List.foldl_concat]
      show (ones k : Whole).value + 1 = _
      rw [ih]
      rfl

theorem isZero_ones {k : Nat} (hk : 0 < k) : Entry.isZero (ones k : Whole) = false := by
  show decide ((ones k : Whole) = ⟨0⟩) = false
  rw [decide_eq_false_iff_not]
  intro hzero
  have hvalue := value_ones k
  rw [hzero] at hvalue
  exact absurd hvalue (by show ¬ (0 : Int) = k; omega)

/-- A loop, a pair in both orientations and a repeated one; then a loop and an edge out of range. -/
theorem ofEdges_agree_fourNodes :
    (∀ e ∈ [(0, 1), (2, 2), (1, 0), (3, 1), (0, 1)], e.1 < 4 ∧ e.2 < 4) ∧
    (∀ k, 0 < k → Entry.isZero (ones k : Whole) = false) ∧
    (∃ (a : SparseMatrix Whole) (g h : EliminationGraph),
      Gallery.ofEdges 4 [(0, 1), (2, 2), (1, 0), (3, 1), (0, 1)] = .ok a ∧
        EliminationGraph.ofEdges 4 [(0, 1), (2, 2), (1, 0), (3, 1), (0, 1)] = .ok h ∧
        EliminationGraph.ofMatrix (.sparse a) = .ok g ∧
        a.get 1 0 = .ok ⟨3⟩ ∧ a.get 2 2 = .ok 1 ∧ ∀ i j, j ∈ g.adjacent i ↔ j ∈ h.adjacent i) ∧
    (∃ f, EliminationGraph.ofEdges 4 [(4, 4)] = .error (.fault f)) ∧
    (¬ ∃ f, (Gallery.ofEdges 4 [(4, 4)] : Outcome (SparseMatrix Whole)) = .error (.fault f)) ∧
    ∃ f, (Gallery.ofEdges 4 [(4, 4), (1, 4)] : Outcome (SparseMatrix Whole)) = .error (.fault f) := by
  have hrange : ∀ e ∈ [(0, 1), (2, 2), (1, 0), (3, 1), (0, 1)], e.1 < 4 ∧ e.2 < 4 := by decide
  have hones : ∀ k, 0 < k → Entry.isZero (ones k : Whole) = false := fun k => isZero_ones
  obtain ⟨-, -, hagree⟩ := ofEdges_matrix_and_graph_agree (α := Whole) 4
    [(0, 1), (2, 2), (1, 0), (3, 1), (0, 1)]
  obtain ⟨hgraph, hloop, -⟩ := ofEdges_matrix_and_graph_agree (α := Whole) 4 [(4, 4)]
  obtain ⟨-, hedge, -⟩ := ofEdges_matrix_and_graph_agree (α := Whole) 4 [(4, 4), (1, 4)]
  obtain ⟨a, h, ha, hh, -, -, -, -, -, hdiagonal, hentry, hsame⟩ := hagree hrange
  obtain ⟨g, hg, -, hadj⟩ := hsame hones
  refine ⟨hrange, hones, ⟨a, g, h, ha, hh, hg, ?_, hdiagonal rfl 2 (by decide), hadj⟩,
    hgraph.mpr (by decide), fun hf => absurd (hloop.mp hf) (by decide), hedge.mpr (by decide)⟩
  exact hentry 1 (by decide) 0 (by decide) (by decide)

end Gallery

end EliminationOrder

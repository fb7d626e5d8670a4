/-
Only the pattern matters.

A method that eliminates sees of a matrix which pairs of different rows are joined, and of
a graph who is whose neighbor.  Values, the diagonal, the side on which an entry stands,
the storage, and the order in which edges were listed all leave their mark on the lists of
the graph, and none of it shows in an answer.

The argument is a simulation of two runs.  `Alike` is the relation that holds between the
graphs along the way, and calls keep it.  The greedy rules choose by a cost that reads the
lists as sets, so they choose alike (`GreedyRun.eq_of_alike`); the searches of a hop
ordering find the same shells.
-/
import EliminationOrder.Proofs.FillPaths
import EliminationOrder.Proofs.Ordering.Method

namespace EliminationOrder

variable {g h g' h' : EliminationGraph}

namespace EliminationGraph

/-! ### Greedy runs -/

variable {cost : (Nat → List Nat) → Nat → Nat} {n : Nat} {p q : List Nat}

/-- A cost in which it does not matter how the lists are ordered. -/
def Unordered (cost : (Nat → List Nat) → Nat → Nat) : Prop :=
  ∀ {g h : EliminationGraph}, Alike g h → ∀ i, cost g.adjacent i = cost h.adjacent i

theorem Least.of_alike (hcost : Unordered cost) (hgh : Alike g h) (hn : Least cost h n) :
    Least cost g n := by
  refine ⟨by rw [hgh.isActive]; exact hn.isActive, ?_⟩
  intro i hi
  rw [hcost hgh n, hcost hgh i]
  exact hn.least i (by rw [← hgh.isActive]; exact hi)

/-- **A rule whose cost is unordered takes the same nodes from graphs that are alike.** -/
theorem GreedyRun.eq_of_alike (hcost : Unordered cost) (h₁ : GreedyRun cost g p g')
    (h₂ : GreedyRun cost h q h') (hgh : Alike g h) : p = q :=
  simulation Alike (fun hgh => hgh.isActive) (fun hgh hn => hn.of_alike hcost hgh)
    (fun hgh hg hh => hgh.eliminated hg hh) h₁ h₂ hgh

/-- Two such runs end alike: with the same nodes, and with none left. -/
theorem GreedyRun.endAlike (hcost : Unordered cost) (h₁ : GreedyRun cost g p g')
    (h₂ : GreedyRun cost h q h') (hgh : Alike g h) : EndAlike (.ok (p, g')) (.ok (q, h')) := by
  obtain rfl := h₁.eq_of_alike hcost h₂ hgh
  refine EndAlike.ok p (alike_of_none_active (h₁.sound hgh.left) (h₂.sound hgh.right) ?_
    h₁.isActive_eq_false h₂.isActive_eq_false)
  rw [h₁.nnodes, h₂.nnodes, hgh.nnodes]

theorem Follows.endAlike {order : EliminationGraph → Outcome (List Nat × EliminationGraph)}
    (hrule : Follows cost order) (hcost : Unordered cost) (hgh : Alike g h) :
    EndAlike (order g) (order h) := by
  obtain ⟨p, g', hg, hrun⟩ := hrule g hgh.left
  obtain ⟨q, h', hh, hrun'⟩ := hrule h hgh.right
  rw [hg, hh]
  exact hrun.endAlike hcost hrun' hgh

theorem unordered_degreeCost : Unordered MinimumDegree.degreeCost :=
  fun hgh i => (hgh.perm i).length_eq

theorem unordered_fillCost : Unordered MinimumFill.fillCost :=
  fun hgh i => hgh.missing_eq i

/-! ### Graphs -/

/-- No call tells the two graphs apart. -/
structure Interchangeable (g h : EliminationGraph) : Prop where
  degree : ∀ i, g.degree i = h.degree i
  eliminate : ∀ n, EndAlike (g.eliminate n) (h.eliminate n)
  predictFill : ∀ n, EndAlike (g.predictFill n) (h.predictFill n)
  fillIn : ∀ p, EndAlike (g.fillIn p) (h.fillIn p)
  minimumDegree : EndAlike (MinimumDegree.order g) (MinimumDegree.order h)
  minimumFill : EndAlike (MinimumFill.order g) (MinimumFill.order h)
  hopDegree : ∀ k : HopDegree, k.order g = k.order h

/-- **Graphs that are alike are interchangeable.** -/
theorem Alike.interchangeable (hgh : Alike g h) : Interchangeable g h where
  degree := hgh.degree
  eliminate := hgh.eliminate
  predictFill := hgh.predictFill
  fillIn := hgh.fillIn
  minimumDegree := MinimumDegree.follows_degreeCost.endAlike unordered_degreeCost hgh
  minimumFill := MinimumFill.follows_fillCost.endAlike unordered_fillCost hgh
  hopDegree _ := HopDegree.order_eq_of_alike hgh

/-! ### What graphs are made of -/

/-- Whether `i` and `j` are the ends of a listed edge, in either orientation. -/
def Listed (edges : List (Nat × Nat)) (i j : Nat) : Prop :=
  (i, j) ∈ edges ∨ (j, i) ∈ edges

theorem Fresh.alike {size : Nat} (hg : Fresh size g) (hh : Fresh size h)
    (hmem : ∀ i j, j ∈ g.adjacent i ↔ j ∈ h.adjacent i) : Alike g h where
  left := hg.sound
  right := hh.sound
  nnodes := by rw [hg.nnodes, hh.nnodes]
  isActive := by
    funext i
    rw [hg.isActive, hh.isActive]
  mem_iff := hmem

/-- Edge lists with the same pairs of different nodes make graphs that are alike. -/
theorem ofEdges_alike {edges edges' : List (Nat × Nat)} (hrange : ∀ e ∈ edges, e.1 < n ∧ e.2 < n)
    (hrange' : ∀ e ∈ edges', e.1 < n ∧ e.2 < n)
    (hsame : ∀ i j, i ≠ j → (Listed edges i j ↔ Listed edges' i j)) :
    ∃ g h, ofEdges n edges = .ok g ∧ ofEdges n edges' = .ok h ∧ Alike g h := by
  obtain ⟨g, hg, hfresh, hadj⟩ := ofEdges_ok hrange
  obtain ⟨h, hh, hfresh', hadj'⟩ := ofEdges_ok hrange'
  refine ⟨g, h, hg, hh, hfresh.alike hfresh' ?_⟩
  intro i j
  rw [hadj, hadj']
  exact and_congr_right fun hij => hsame i j hij

/-- Square matrices with the same symmetrised pattern make graphs that are alike. -/
theorem ofMatrix_alike {α β : Type} [Entry α] [Entry β] {a : StoredMatrix α} {b : StoredMatrix β}
    (ha : a.nrows = a.ncols) (hb : b.nrows = b.ncols) (hsize : a.nrows = b.nrows)
    (hsame : ∀ i j, a.Joined i j ↔ b.Joined i j) :
    ∃ g h, ofMatrix a = .ok g ∧ ofMatrix b = .ok h ∧ Alike g h := by
  obtain ⟨g, hg, hfresh, hadj⟩ := ofMatrix_ok ha
  obtain ⟨h, hh, hfresh', hadj'⟩ := ofMatrix_ok hb
  rw [← hsize] at hfresh'
  refine ⟨g, h, hg, hh, hfresh.alike hfresh' ?_⟩
  intro i j
  rw [hadj, hadj', hsame]

end EliminationGraph

open EliminationGraph

/-! ### Matrices -/

section Matrices

variable {α β : Type} [Entry α] [Entry β] {a : StoredMatrix α} {b : StoredMatrix β}
  (ha : EliminationGraph.ofMatrix a = .ok g) (hb : EliminationGraph.ofMatrix b = .ok h)
  (hgh : Interchangeable g h)

include ha hb hgh

theorem order_minimumDegree_eq :
    Method.exactMinimumDegree.order a = Method.exactMinimumDegree.order b := by
  rw [Method.order, Method.order, ha, hb]
  exact hgh.minimumDegree.answer_eq

theorem order_minimumFill_eq :
    Method.greedyMinimumFill.order a = Method.greedyMinimumFill.order b := by
  rw [Method.order, Method.order, ha, hb]
  exact hgh.minimumFill.answer_eq

theorem order_hopDegree_eq (k : HopDegree) :
    (Method.hopDegree k).order a = (Method.hopDegree k).order b := by
  rw [Method.order, Method.order, ha, hb, Outcome.ok_bind, Outcome.ok_bind, hgh.hopDegree]

theorem fillIn_eq (p : List Nat) : fillIn a p = fillIn b p := by
  rw [fillIn, fillIn, ha, hb]
  exact (hgh.fillIn p).answer_eq

end Matrices

/-- The methods that eliminate answer both matrices with one order, and every order costs the same. -/
structure SameAnswers {α β : Type} [Entry α] [Entry β] (a : StoredMatrix α) (b : StoredMatrix β) :
    Prop where
  minimumDegree : ∃ p, Method.exactMinimumDegree.order a = .ok p ∧
    Method.exactMinimumDegree.order b = .ok p
  minimumFill : ∃ p, Method.greedyMinimumFill.order a = .ok p ∧
    Method.greedyMinimumFill.order b = .ok p
  hopDegree : ∀ k, ∃ p, (Method.hopDegree k).order a = .ok p ∧ (Method.hopDegree k).order b = .ok p
  fillIn : ∀ p, EliminationOrder.fillIn a p = EliminationOrder.fillIn b p

theorem sameAnswers_of_joined {α β : Type} [Entry α] [Entry β] {a : StoredMatrix α}
    {b : StoredMatrix β} (ha : a.nrows = a.ncols) (hb : b.nrows = b.ncols)
    (hsize : a.nrows = b.nrows) (hsame : ∀ i j, a.Joined i j ↔ b.Joined i j) : SameAnswers a b := by
  obtain ⟨g, h, hg, hh, hgh⟩ := ofMatrix_alike ha hb hsize hsame
  have hinter := hgh.interchangeable
  refine ⟨?_, ?_, ?_, fillIn_eq hg hh hinter⟩
  · obtain ⟨p, hp, -⟩ := Method.order_minimumDegree_ok ha
    exact ⟨p, hp, by rw [← order_minimumDegree_eq hg hh hinter, hp]⟩
  · obtain ⟨p, hp, -⟩ := Method.order_minimumFill_ok ha
    exact ⟨p, hp, by rw [← order_minimumFill_eq hg hh hinter, hp]⟩
  · intro k
    obtain ⟨p, hp, -⟩ := Method.order_hopDegree_ok k ha
    exact ⟨p, hp, by rw [← order_hopDegree_eq hg hh hinter, hp]⟩

/--
**Only the symmetrised pattern matters.**  Square matrices of one order in which the same
pairs of different rows are joined, whatever stores them and whatever their entries are,
get the same orders from the methods that eliminate, and every list of rows has the same
fill in both.  Edge lists with the same pairs of different nodes make graphs that no call
tells apart.  Nor does a call tell apart two reachable graphs with the same neighbors,
however their lists are ordered.
-/
theorem same_pattern_same_answers :
    (∀ {α β : Type} [Entry α] [Entry β] (a : StoredMatrix α) (b : StoredMatrix β),
      a.nrows = a.ncols → b.nrows = b.ncols → a.nrows = b.nrows →
      (∀ i j, i ≠ j → (a.Nonzero i j ∨ a.Nonzero j i ↔ b.Nonzero i j ∨ b.Nonzero j i)) →
      SameAnswers a b) ∧
    (∀ (n : Nat) (edges edges' : List (Nat × Nat)),
      (∀ e ∈ edges, e.1 < n ∧ e.2 < n) → (∀ e ∈ edges', e.1 < n ∧ e.2 < n) →
      (∀ i j, i ≠ j → (Listed edges i j ↔ Listed edges' i j)) →
      ∃ g h, ofEdges n edges = .ok g ∧ ofEdges n edges' = .ok h ∧ Interchangeable g h) ∧
    (∀ g h, Reachable g → Reachable h → g.nnodes = h.nnodes → g.isActive = h.isActive →
      (∀ i j, j ∈ g.adjacent i ↔ j ∈ h.adjacent i) → Interchangeable g h) := by
  refine ⟨?_, ?_, ?_⟩
  · intro α β _ _ a b ha hb hsize hsame
    exact sameAnswers_of_joined ha hb hsize fun i j => and_congr_right (hsame i j)
  · intro n edges edges' hrange hrange' hsame
    obtain ⟨g, h, hg, hh, hgh⟩ := ofEdges_alike hrange hrange' hsame
    exact ⟨g, h, hg, hh, hgh.interchangeable⟩
  · intro g h hg hh hnnodes hactive hmem
    exact Alike.interchangeable ⟨hg.sound, hh.sound, hnnodes, hactive, hmem⟩

/-- The pairs of `halfStar`, joined from the other side, with one negative entry and a stored zero. -/
def starByColumn : StoredMatrix Int64 :=
  .sparse
    { nrows := 3
      columns := #[[(1, 7), (2, -1)], [], [(1, 0)]]
      rows := #[[], [0], [0]]
      ascending := by decide
      inRange := by decide
      rows_eq := by decide +kernel }

theorem nonzero_halfStar_iff (i j : Nat) (hij : i ≠ j) :
    halfStar.Nonzero i j ∨ halfStar.Nonzero j i ↔
      starByColumn.Nonzero i j ∨ starByColumn.Nonzero j i := by
  by_cases hlt : i < 3 ∧ j < 3
  · have hall : ∀ i < 3, ∀ j < 3, i ≠ j → (halfStar.Nonzero i j ∨ halfStar.Nonzero j i ↔
        starByColumn.Nonzero i j ∨ starByColumn.Nonzero j i) := by decide +kernel
    exact hall i hlt.1 j hlt.2 hij
  · have hstar : ∀ {x y : Nat}, halfStar.Nonzero x y → x < 3 ∧ y < 3 := fun h => ⟨h.1, h.2.1⟩
    have hcolumn : ∀ {x y : Nat}, starByColumn.Nonzero x y → x < 3 ∧ y < 3 :=
      fun h => ⟨h.1, h.2.1⟩
    constructor
    · rintro (h | h)
      · exact absurd (hstar h) hlt
      · exact absurd (hstar h).symm hlt
    · rintro (h | h)
      · exact absurd (hcolumn h) hlt
      · exact absurd (hcolumn h).symm hlt

/-- The edges `0 – 2` and `2 – 3`, with the other node eliminated: `shortenedPath` by another way. -/
def shortenedEdges : EliminationGraph :=
  ⟨#[.active [2], .eliminated, .active [0, 3], .active [2]], 3, ⟨#[3, 0, 4, 3], 4⟩⟩

theorem reachable_shortenedEdges : Reachable shortenedEdges := by
  have hok : EliminationGraph.ofEdges 4 [(0, 2), (2, 3)]
      = .ok ⟨#[.active [2], .active [], .active [0, 3], .active [2]], 4, ⟨#[3, 0, 4, 3], 4⟩⟩ := by rfl
  have helim : EliminationGraph.eliminate
      ⟨#[.active [2], .active [], .active [0, 3], .active [2]], 4, ⟨#[3, 0, 4, 3], 4⟩⟩ 1
      = .ok (0, shortenedEdges) := by rfl
  exact ⟨_, Built.ofEdges hok, Calls.of_eliminate helim⟩

theorem adjacent_shortenedEdges (i j : Nat) :
    j ∈ shortenedPath.adjacent i ↔ j ∈ shortenedEdges.adjacent i := by
  match i with
  | 0 => rfl
  | 1 => rfl
  | 2 =>
      show j ∈ [3, 0] ↔ j ∈ [0, 3]
      simp [or_comm]
  | 3 => rfl
  | i + 4 => rfl

/-- Two matrices, two lists of edges and two graphs that differ in all but their pattern. -/
theorem same_answers_stars_and_paths :
    (halfStar.nrows = halfStar.ncols ∧ starByColumn.nrows = starByColumn.ncols ∧
      halfStar.nrows = starByColumn.nrows ∧ SameAnswers halfStar starByColumn) ∧
    (∃ g h, ofEdges 4 [(0, 1), (1, 2), (2, 3)] = .ok g ∧
      ofEdges 4 [(3, 2), (1, 1), (1, 0), (2, 1), (0, 1)] = .ok h ∧ Interchangeable g h) ∧
    Reachable shortenedPath ∧ Reachable shortenedEdges ∧
      Interchangeable shortenedPath shortenedEdges := by
  obtain ⟨hmatrix, hedges, hgraphs⟩ := same_pattern_same_answers
  have hpath : Reachable shortenedPath := ⟨fourPath, built_fourPath, calls_shortenedPath⟩
  have hactive : shortenedPath.isActive = shortenedEdges.isActive := by
    funext i
    match i with
    | 0 | 1 | 2 | 3 => rfl
    | i + 4 => rfl
  refine ⟨⟨rfl, rfl, rfl, hmatrix _ _ rfl rfl rfl nonzero_halfStar_iff⟩, ?_, hpath,
    reachable_shortenedEdges, hgraphs _ _ hpath reachable_shortenedEdges rfl hactive
      adjacent_shortenedEdges⟩
  refine hedges 4 _ _ (by decide) (by decide) ?_
  intro i j hij
  simp only [Listed, List.mem_cons, Prod.mk.injEq, List.not_mem_nil, or_false]
  grind

end EliminationOrder

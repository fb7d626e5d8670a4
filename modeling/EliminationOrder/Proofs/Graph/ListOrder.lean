/-
The order in which a built graph lists the neighbors of a node.

As a set these are known (`ofEdges_ok`, `ofMatrix_ok`), but the order is seen too: it is
what an elimination appends in, and what a caller reads.  From edges it is the order in
which the edges first name a neighbor.  From a matrix the edges come row by row, so a node
`i` is named by the rows before it that reach into column `i`, then by its own row, then by
the rows after it; each part is ascending and leaves out what came before.

Both follow from one description of the lists, the other ends of the edges without their
repetitions (`ofEdges_lists`), since first occurrences keep the order of the edges
(`pairwise_firstOccurrences`).
-/
import EliminationOrder.Proofs.FirstOccurrences
import EliminationOrder.Proofs.Graph.Reachable

namespace EliminationOrder

/-! ### Rows as edges -/

theorem patternPairs_eq_flatMap (rows : Nat → List Nat) (count : Nat) :
    ∀ (i : Nat), patternPairs i ((List.range' i count).map rows)
      = (List.range' i count).flatMap fun r => (rows r).map (r, ·) := by
  induction count with
  | zero =>
      intro i
      rfl
  | succ count ih =>
      intro i
      rw [List.range'_succ, List.map_cons, patternPairs, ih, List.flatMap_cons]

theorem flatMap_singleton_eq_filter (p : Nat → Bool) (l : List Nat) :
    (l.flatMap fun r => if p r then [r] else []) = l.filter p := by
  induction l with
  | nil => rfl
  | cons r l ih =>
      rw [List.flatMap_cons, ih, List.filter_cons]
      cases p r <;> rfl

theorem filterMap_ite_eq {l : List Nat} (hl : l.Nodup) (i r : Nat) :
    (l.filterMap fun j => if j = i then some r else none) = if i ∈ l then [r] else [] := by
  induction l with
  | nil => rfl
  | cons j l ih =>
      obtain ⟨hj, hl'⟩ := List.nodup_cons.mp hl
      by_cases hji : j = i
      · subst hji
        simp [ih hl', hj]
      · simp [hji, Ne.symm hji, ih hl']

theorem range_split {i n : Nat} (hi : i < n) :
    List.range n = List.range i ++ i :: List.range' (i + 1) (n - (i + 1)) := by
  obtain ⟨rest, rfl⟩ := Nat.exists_eq_add_of_le (Nat.succ_le_of_lt hi)
  rw [Nat.add_sub_cancel_left, ← List.range'_succ, List.range_eq_range', List.range_eq_range',
    Nat.succ_add, ← Nat.add_succ, ← List.range'_append_1, Nat.zero_add]

/-- What is kept of a range past `i` is kept of the part after `i`. -/
theorem filter_range_after {i n : Nat} (hi : i < n) (p : Nat → Prop) [DecidablePred p] :
    ((List.range n).filter fun r => i < r ∧ p r)
      = (List.range' (i + 1) (n - (i + 1))).filter p := by
  have hnone : ((List.range i).filter fun r => i < r ∧ p r) = [] := by
    refine List.filter_eq_nil_iff.mpr fun r hr => ?_
    have := List.mem_range.mp hr
    simp only [decide_eq_true_eq]
    omega
  have hall : ((List.range' (i + 1) (n - (i + 1))).filter fun r => i < r ∧ p r)
      = (List.range' (i + 1) (n - (i + 1))).filter p := by
    refine List.filter_congr fun r hr => ?_
    have hlt : i < r := (List.mem_range'_1.mp hr).1
    simp [hlt]
  rw [range_split hi, List.filter_append, List.filter_cons, hnone, hall]
  simp

namespace StoredMatrix

variable {α : Type} [Entry α] (a : StoredMatrix α) (i : Nat)

/-- The rows before row `i` that are not zero in column `i`. -/
def rowsBefore : List Nat :=
  (List.range i).filter fun r => a.Nonzero r i

/-- The other columns that are not zero in row `i` and not listed yet. -/
def ownColumns : List Nat :=
  (List.range a.ncols).filter fun j => j ≠ i ∧ a.Nonzero i j ∧ j ∉ a.rowsBefore i

/-- The rows after row `i` that are not zero in column `i` and not listed yet. -/
def rowsAfter : List Nat :=
  (List.range a.nrows).filter fun r =>
    i < r ∧ a.Nonzero r i ∧ r ∉ a.rowsBefore i ++ a.ownColumns i

/-- The neighbors of `i` in the symmetrised pattern, in the order in which the rows name them. -/
def listing : List Nat :=
  a.rowsBefore i ++ a.ownColumns i ++ a.rowsAfter i

/-- A row names `i` once if it is another row, and in its own row `i` is what names. -/
theorem filterMap_across_row (r : Nat) :
    ((a.nonzeroColumns r).map (r, ·)).filterMap (EliminationGraph.across i)
      = if r = i then (a.nonzeroColumns i).filter (· ≠ i) else if a.Nonzero r i then [r] else [] := by
  rw [List.filterMap_map]
  by_cases hr : r = i
  · subst hr
    have hown : EliminationGraph.across r ∘ (r, ·) = Option.guard (fun j => decide (j ≠ r)) := by
      funext j
      by_cases hj : r = j
      · simp [EliminationGraph.across, Option.guard, hj]
      · simp [EliminationGraph.across, Option.guard, hj, Ne.symm hj]
    rw [if_pos rfl, hown, List.filterMap_eq_filter]
  · have hother : EliminationGraph.across i ∘ (r, ·) = fun j => if j = i then some r else none := by
      funext j
      by_cases hj : j = i
      · simp [EliminationGraph.across, hj, hr]
      · simp [EliminationGraph.across, hj, hr]
    simp only [hother, filterMap_ite_eq (a.nodup_nonzeroColumns r), mem_nonzeroColumns, if_neg hr]

/-- **What names `i`**: the rows before it, its own row, and the rows after it. -/
theorem filterMap_across_positions {i : Nat} (hi : i < a.nrows) :
    a.positions.filterMap (EliminationGraph.across i)
      = a.rowsBefore i ++ (a.nonzeroColumns i).filter (· ≠ i)
        ++ (List.range a.nrows).filter fun r => i < r ∧ a.Nonzero r i := by
  have hnames := a.filterMap_across_row i
  have hothers : ∀ rs : List Nat, (∀ r ∈ rs, r ≠ i) →
      (rs.flatMap fun r => ((a.nonzeroColumns r).map (r, ·)).filterMap (EliminationGraph.across i))
        = rs.filter fun r => a.Nonzero r i := by
    intro rs hrs
    rw [← flatMap_singleton_eq_filter]
    refine List.flatMap_congr fun r hr => ?_
    rw [hnames, if_neg (hrs r hr)]
    simp
  rw [positions, List.range_eq_range', patternPairs_eq_flatMap, List.filterMap_flatMap,
    ← List.range_eq_range', filter_range_after hi, range_split hi, List.flatMap_append,
    List.flatMap_cons, hnames, if_pos rfl, hothers, hothers, rowsBefore, List.append_assoc]
  · intro r hr
    have := (List.mem_range'_1.mp hr).1
    omega
  · intro r hr
    exact Nat.ne_of_lt (List.mem_range.mp hr)

/-- Without its repetitions, this is the listing. -/
theorem eraseDups_across_positions {i : Nat} (hi : i < a.nrows) :
    (a.positions.filterMap (EliminationGraph.across i)).eraseDups = a.listing i := by
  set own := (a.nonzeroColumns i).filter (· ≠ i) with hown
  have hmemOwn : ∀ j, j ∈ own ↔ a.Nonzero i j ∧ j ≠ i := by
    intro j
    rw [hown, List.mem_filter, mem_nonzeroColumns, decide_eq_true_eq]
  have hcolumns : own.removeAll (a.rowsBefore i) = a.ownColumns i := by
    rw [hown, nonzeroColumns, List.removeAll, List.filter_filter, List.filter_filter, ownColumns]
    refine List.filter_congr fun j _ => ?_
    rw [Bool.eq_iff_iff]
    simp only [List.elem_eq_contains, Bool.and_eq_true, Bool.not_eq_true', decide_eq_true_eq,
      List.contains_eq_mem, decide_eq_false_iff_not]
    tauto
  have hmemColumns : ∀ j, j ∈ a.ownColumns i ↔ j ∈ own ∧ j ∉ a.rowsBefore i := by
    intro j
    rw [← hcolumns, List.removeAll, List.mem_filter]
    simp
  have hrows : ((List.range a.nrows).filter fun r => i < r ∧ a.Nonzero r i).removeAll
      (a.rowsBefore i ++ own) = a.rowsAfter i := by
    rw [List.removeAll, List.filter_filter, rowsAfter]
    refine List.filter_congr fun r _ => ?_
    rw [Bool.eq_iff_iff]
    simp only [List.elem_eq_contains, Bool.and_eq_true, Bool.not_eq_true', decide_eq_true_eq,
      List.contains_eq_mem, decide_eq_false_iff_not, List.mem_append, hmemColumns]
    tauto
  have hbefore : (a.rowsBefore i).Nodup := List.nodup_range.filter _
  have hcolumnsNodup : (a.ownColumns i).Nodup := List.nodup_range.filter _
  have hafter : (a.rowsAfter i).Nodup := List.nodup_range.filter _
  rw [filterMap_across_positions a hi, List.eraseDups_append, List.eraseDups_append, hcolumns, hrows,
    eraseDups_eq_self hbefore, eraseDups_eq_self hcolumnsNodup,
    eraseDups_eq_self hafter, listing]

theorem nodup_listing {i : Nat} (hi : i < a.nrows) : (a.listing i).Nodup := by
  rw [← a.eraseDups_across_positions hi]
  exact nodup_eraseDups _

theorem mem_listing {i j : Nat} (hi : i < a.nrows) :
    j ∈ a.listing i ↔ j ≠ i ∧ (a.Nonzero i j ∨ a.Nonzero j i) := by
  rw [← a.eraseDups_across_positions hi, List.mem_eraseDups, EliminationGraph.mem_filterMap_across,
    EliminationGraph.mem_positions, EliminationGraph.mem_positions, ne_comm]

end StoredMatrix

namespace EliminationGraph

/-! ### Edges in their order -/

/-- Whether an edge joins `i` and `j`. -/
def joins (i j : Nat) (edge : Nat × Nat) : Bool :=
  edge == (i, j) || edge == (j, i)

/-- The nodes that edges join to `i`, in the order in which the edges first name them. -/
structure FirstNamed (edges : List (Nat × Nat)) (i : Nat) (ns : List Nat) : Prop where
  nodup : ns.Nodup
  mem_iff : ∀ j, j ∈ ns ↔ j ≠ i ∧ ((i, j) ∈ edges ∨ (j, i) ∈ edges)
  order : ns.Pairwise fun x y => edges.findIdx (joins i x) < edges.findIdx (joins i y)

theorem firstNamed_across (edges : List (Nat × Nat)) (i : Nat) :
    FirstNamed edges i (edges.filterMap (across i)).eraseDups := by
  have hmem : ∀ j, j ∈ (edges.filterMap (across i)).eraseDups ↔
      j ≠ i ∧ ((i, j) ∈ edges ∨ (j, i) ∈ edges) := by
    intro j
    rw [List.mem_eraseDups, mem_filterMap_across, ne_comm]
  have hjoins : ∀ {x}, x ≠ i → (fun edge => across i edge == some x) = joins i x := by
    intro x hx
    funext edge
    rw [Bool.eq_iff_iff, joins, Bool.or_eq_true, beq_iff_eq, beq_iff_eq, beq_iff_eq, across_eq_some]
    exact and_iff_right hx.symm
  refine ⟨nodup_eraseDups _, hmem, ?_⟩
  refine (pairwise_firstOccurrences (across i) edges).imp_of_mem fun {x y} hx hy hxy => ?_
  rwa [hjoins ((hmem x).mp hx).1, hjoins ((hmem y).mp hy).1] at hxy

/-! ### The order of both constructions -/

/--
**A built graph lists neighbors in the order in which they are named.**  From a square matrix,
with every node active: at `i` first the rows before it that are not zero in column `i`, then
the columns of its own row, then the rows after it, each part ascending and without what
stands there already.  A matrix that is not square is refused.  From edges between nodes: the
nodes joined to `i`, by the first edge that names them.
-/
theorem built_lists_in_order :
    (∀ {α : Type} [Entry α] (a : StoredMatrix α), a.nrows = a.ncols →
      ∃ g, ofMatrix a = .ok g ∧ g.nnodes = a.nrows ∧ g.nactive = a.nrows ∧
        ∀ i < a.nrows, g.isEliminated i = .ok false ∧ g.neighbors i = .ok (a.listing i) ∧
          (a.listing i).Nodup ∧
          ∀ j, j ∈ a.listing i ↔ j ≠ i ∧ (a.Nonzero i j ∨ a.Nonzero j i)) ∧
    (∀ {α : Type} [Entry α] (a : StoredMatrix α), a.nrows ≠ a.ncols →
      ofMatrix a = .error (.refused (.notSquare a.nrows a.ncols))) ∧
    ∀ (n : Nat) (edges : List (Nat × Nat)), (∀ e ∈ edges, e.1 < n ∧ e.2 < n) →
      ∃ g, ofEdges n edges = .ok g ∧ g.nnodes = n ∧ g.nactive = n ∧
        ∀ i < n, ∃ ns, g.neighbors i = .ok ns ∧ FirstNamed edges i ns := by
  refine ⟨?_, fun a hshape => ofMatrix_error hshape, ?_⟩
  · intro α _ a hsquare
    obtain ⟨g, hok, hfresh, hadj⟩ := ofEdges_lists (lt_of_mem_positions hsquare)
    refine ⟨g, by rw [ofMatrix_eq_ofEdges hsquare, hok], hfresh.nnodes, hfresh.nactive_eq, ?_⟩
    intro i hi
    have hrange : i < g.nnodes := by
      rw [hfresh.nnodes]
      exact hi
    refine ⟨?_, ?_, a.nodup_listing hi, fun j => a.mem_listing hi⟩
    · rw [isEliminated_eq hrange, hfresh.isActive]
      simp [hi]
    · rw [neighbors_eq hrange, hadj, a.eraseDups_across_positions hi]
  · intro n edges hedges
    obtain ⟨g, hok, hfresh, hadj⟩ := ofEdges_lists hedges
    refine ⟨g, hok, hfresh.nnodes, hfresh.nactive_eq, ?_⟩
    intro i hi
    have hrange : i < g.nnodes := by
      rw [hfresh.nnodes]
      exact hi
    exact ⟨_, by rw [neighbors_eq hrange, hadj], firstNamed_across edges i⟩

/-- Five rows, in which row 2 is named from before, names others itself, and is named from after. -/
def fiveRows : StoredMatrix UInt8 :=
  .sparse
    { nrows := 5
      columns := #[[(2, 1)], [], [(1, 1), (3, 1), (4, 1)], [(2, 1)], []]
      rows := #[[], [2], [0, 3], [2], [2]]
      ascending := by decide
      inRange := by decide
      rows_eq := by decide +kernel }

/-- The matrix lists its row 2 in an order that is not ascending, and so do edges with repetitions. -/
theorem built_lists_in_order_fiveRows :
    let wide : StoredMatrix UInt8 := .dense ⟨1, 2, #[0, 1], rfl⟩
    let edges := [(2, 1), (1, 1), (0, 1), (1, 2)]
    fiveRows.nrows = fiveRows.ncols ∧
      (∃ g, ofMatrix fiveRows = .ok g ∧ g.neighbors 2 = .ok [1, 0, 3, 4]) ∧
      wide.nrows ≠ wide.ncols ∧ ofMatrix wide = .error (.refused (.notSquare 1 2)) ∧
      (∀ e ∈ edges, e.1 < 3 ∧ e.2 < 3) ∧
      ∃ g, ofEdges 3 edges = .ok g ∧ g.neighbors 1 = .ok [2, 0] ∧ FirstNamed edges 1 [2, 0] := by
  intro wide edges
  obtain ⟨hmatrix, hrefused, hedges⟩ := built_lists_in_order
  have hsquare : fiveRows.nrows = fiveRows.ncols := rfl
  have hwide : wide.nrows ≠ wide.ncols := by decide
  have hrange : ∀ e ∈ edges, e.1 < 3 ∧ e.2 < 3 := by decide
  obtain ⟨g, hg, -, -, hlists⟩ := hmatrix fiveRows hsquare
  have hlisting : fiveRows.listing 2 = [1, 0, 3, 4] := by decide +kernel
  obtain ⟨h, hh, -, -, hnamed⟩ := hedges 3 edges hrange
  obtain ⟨ns, hns, hfirst⟩ := hnamed 1 (by decide)
  have hrun : ofEdges 3 edges
      = .ok ⟨#[.active [1], .active [2, 0], .active [1]], 3, ⟨#[2, 3, 2], 3⟩⟩ := by rfl
  obtain rfl := Except.ok.inj (hh.symm.trans hrun)
  obtain rfl := Except.ok.inj hns
  refine ⟨hsquare, ⟨g, hg, ?_⟩, hwide, hrefused wide hwide, hrange, _, hh, hns, hfirst⟩
  rw [(hlists 2 (by decide)).2.1, hlisting]

end EliminationGraph

end EliminationOrder

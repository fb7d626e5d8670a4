/-
Neither the storage nor the values of a matrix show in an order.

A method asks a matrix for its shape and for the nonzero columns of its rows, and for
nothing else.  A sparse matrix answers from an index of its rows that was built beside the
columns, a dense one by reading the row, and both answers are the columns whose entry is
not zero (`StoredMatrix.rowPattern_eq`).  So matrices of one shape that are zero at the
same positions get the same answers from every method, refusals included, whatever their
entries are otherwise and whatever their types.

Which entries count as zero is for the entry type to say: a stored zero does, a negative
zero does, and a NaN does not.
-/
import EliminationOrder.Ordering.Method
import EliminationOrder.Proofs.Matrix.Pattern

namespace EliminationOrder

variable {α β : Type} [Entry α] [Entry β] {a : StoredMatrix α} {b : StoredMatrix β} {i j : Nat}

/-- Two matrices of one shape that are zero at the same positions. -/
structure SameZeros {α β : Type} [Entry α] [Entry β] (a : StoredMatrix α) (b : StoredMatrix β) :
    Prop where
  nrows : a.nrows = b.nrows
  ncols : a.ncols = b.ncols
  isZero : ∀ i j x y, i < a.nrows → j < a.ncols → a.get i j = .ok x → b.get i j = .ok y →
    (Entry.isZero x = true ↔ Entry.isZero y = true)

theorem sameZeros_of_nonzero (hrows : a.nrows = b.nrows) (hcols : a.ncols = b.ncols)
    (h : ∀ i < a.nrows, ∀ j < a.ncols, (a.Nonzero i j ↔ b.Nonzero i j)) : SameZeros a b := by
  refine ⟨hrows, hcols, ?_⟩
  intro i j x y hi hj hx hy
  have hsame := h i hi j hj
  rw [StoredMatrix.nonzero_iff hi hj hx,
    StoredMatrix.nonzero_iff (hrows ▸ hi) (hcols ▸ hj) hy] at hsame
  rw [← Bool.not_eq_false, ← Bool.not_eq_false, hsame]

namespace SameZeros

variable (h : SameZeros a b)

include h

/-- They have the same pattern. -/
theorem nonzero_iff (i j : Nat) : a.Nonzero i j ↔ b.Nonzero i j := by
  by_cases hij : i < a.nrows ∧ j < a.ncols
  · obtain ⟨hi, hj⟩ := hij
    have hi' : i < b.nrows := h.nrows ▸ hi
    have hj' : j < b.ncols := h.ncols ▸ hj
    obtain ⟨x, hx⟩ := StoredMatrix.get_ok hi hj
    obtain ⟨y, hy⟩ := StoredMatrix.get_ok hi' hj'
    rw [StoredMatrix.nonzero_iff hi hj hx, StoredMatrix.nonzero_iff hi' hj' hy,
      ← Bool.not_eq_true, ← Bool.not_eq_true, h.isZero i j x y hi hj hx hy]
  · have ha : ¬ a.Nonzero i j := fun hc => hij ⟨hc.1, hc.2.1⟩
    have hb : ¬ b.Nonzero i j := fun hc => hij ⟨h.nrows ▸ hc.1, h.ncols ▸ hc.2.1⟩
    exact iff_of_false ha hb

theorem nonzeroColumns_eq (i : Nat) : a.nonzeroColumns i = b.nonzeroColumns i := by
  unfold StoredMatrix.nonzeroColumns
  rw [h.ncols]
  refine List.filter_congr fun j _ => ?_
  rw [Bool.eq_iff_iff, decide_eq_true_eq, decide_eq_true_eq]
  exact h.nonzero_iff i j

/-- **The index of one and a scan of the other list the same columns.** -/
theorem rowPattern_eq (hi : i < a.nrows) : a.rowPattern i = b.rowPattern i := by
  rw [StoredMatrix.rowPattern_eq hi, StoredMatrix.rowPattern_eq (h.nrows ▸ hi),
    h.nonzeroColumns_eq]

theorem rowPatterns_eq : a.rowPatterns = b.rowPatterns := by
  rw [a.rowPatterns_eq, b.rowPatterns_eq, h.nrows]
  exact congrArg Except.ok (List.map_congr_left fun i _ => h.nonzeroColumns_eq i)

/-! ### What methods start from -/

/-- They make one graph, in which even the lists are ordered alike. -/
theorem ofMatrix_eq : EliminationGraph.ofMatrix a = EliminationGraph.ofMatrix b := by
  unfold EliminationGraph.ofMatrix
  rw [h.nrows, h.ncols, h.rowPatterns_eq]

theorem zeroCounts_eq : ZeroCounts.ofMatrix a = ZeroCounts.ofMatrix b := by
  unfold ZeroCounts.ofMatrix
  rw [h.nrows, h.ncols, h.rowPatterns_eq]

/-- Every method makes the same of them. -/
theorem order_eq (method : Method) : method.order a = method.order b := by
  cases method with
  | exactMinimumDegree => rw [Method.order, Method.order, h.ofMatrix_eq]
  | greedyMinimumFill => rw [Method.order, Method.order, h.ofMatrix_eq]
  | approximateFill =>
      show approximateFill a = approximateFill b
      unfold approximateFill
      rw [h.nrows, h.ncols, h.zeroCounts_eq]
  | greedyRow =>
      show greedyRow a = greedyRow b
      unfold greedyRow
      rw [h.zeroCounts_eq]
  | hopDegree k => rw [Method.order, Method.order, h.ofMatrix_eq]

end SameZeros

/-- A sparse matrix and its dense copy are zero at the same positions. -/
theorem sameZeros_toDense (s : SparseMatrix α) :
    ∃ d, s.toDense = .ok d ∧ SameZeros (.sparse s) (.dense d) := by
  obtain ⟨d, hok, hrows, hcols, hget⟩ := s.toDense_ok
  refine ⟨d, hok, hrows.symm, hcols.symm, ?_⟩
  intro i j x y hi hj hx hy
  have hsame : d.get i j = s.get i j := hget i j hi hj
  rw [show (StoredMatrix.sparse s).get i j = s.get i j from rfl, ← hsame] at hx
  rw [show (StoredMatrix.dense d).get i j = d.get i j from rfl, hx, Except.ok.injEq] at hy
  rw [hy]

/--
**Only the shape and the zeros of a matrix show in an order.**  Two matrices of one shape
that are zero at the same positions, in whichever storage and with entries of whichever
types, list the same columns for each row and get the same order from every method, or the
same refusal.  A sparse matrix and its dense copy are such a pair.
-/
theorem storage_and_values_do_not_show :
    (∀ {α β : Type} [Entry α] [Entry β] (a : StoredMatrix α) (b : StoredMatrix β),
      SameZeros a b →
        (∀ i < a.nrows, ∃ row, a.rowPattern i = .ok row ∧ b.rowPattern i = .ok row) ∧
        ∀ method : Method, method.order a = method.order b) ∧
    ∀ {α : Type} [Entry α] (s : SparseMatrix α),
      ∃ d, s.toDense = .ok d ∧ SameZeros (.sparse s) (.dense d) ∧
        ∀ method : Method, method.order (.sparse s) = method.order (.dense d) := by
  refine ⟨?_, ?_⟩
  · intro α β _ _ a b h
    refine ⟨fun i hi => ?_, h.order_eq⟩
    refine ⟨a.nonzeroColumns i, StoredMatrix.rowPattern_eq hi, ?_⟩
    rw [← h.rowPattern_eq hi, StoredMatrix.rowPattern_eq hi]
  · intro α _ s
    obtain ⟨d, hok, hsame⟩ := sameZeros_toDense s
    exact ⟨d, hok, hsame, hsame.order_eq⟩

/-- Two rows and three columns that store a NaN and two negative zeros. -/
def oddFloats : StoredMatrix Float :=
  .sparse
    { nrows := 2
      columns := #[[(0, 0.0 / 0.0)], [(1, -0.0)], [(0, -0.0), (1, 2.5)]]
      rows := #[[0], [2]]
      ascending := by decide
      inRange := by decide
      rows_eq := by decide +kernel }

/-- The same zeros among complex numbers, with all of them stored. -/
def plainComplex : StoredMatrix ComplexFloat :=
  .dense ⟨2, 3, #[⟨0.0, 1.0⟩, ⟨0.0, 0.0⟩, ⟨0.0, 0.0⟩, ⟨0.0, 0.0⟩, ⟨-0.0, 0.0⟩, ⟨1.0, -1.0⟩], rfl⟩

/-- Two wide matrices get one order by rows, and one refusal from a method that eliminates. -/
theorem storage_and_values_do_not_show_oddFloats :
    SameZeros oddFloats plainComplex ∧
      (∃ row, oddFloats.rowPattern 1 = .ok row ∧ plainComplex.rowPattern 1 = .ok row) ∧
      Method.greedyRow.order oddFloats = .ok [0, 1] ∧
      Method.greedyRow.order plainComplex = .ok [0, 1] ∧
      Method.exactMinimumDegree.order oddFloats = .error (.refused (.notSquare 2 3)) ∧
      Method.exactMinimumDegree.order plainComplex = .error (.refused (.notSquare 2 3)) := by
  have hpattern : ∀ i < 2, ∀ j < 3, (oddFloats.Nonzero i j ↔ plainComplex.Nonzero i j) := by
    decide +kernel
  have hsame : SameZeros oddFloats plainComplex := sameZeros_of_nonzero rfl rfl hpattern
  obtain ⟨hrows, horder⟩ := storage_and_values_do_not_show.1 oddFloats plainComplex hsame
  have hgreedy : Method.greedyRow.order oddFloats = .ok [0, 1] := by rfl
  have hrefused : Method.exactMinimumDegree.order oddFloats
      = .error (.refused (.notSquare 2 3)) := by rfl
  exact ⟨hsame, hrows 1 (by decide), hgreedy, by rw [← horder, hgreedy], hrefused,
    by rw [← horder, hrefused]⟩

end EliminationOrder

/-
What packed arrays are accepted as a matrix, and what the matrix holds.

Nothing is checked before the columns have been sorted in place and the rows indexed, so
arrays that are not well formed are turned away in two places: by the sort, which reads
columns that do not lie in the arrays, and by the checks at the end.  Together they turn away
just what is not `WellFormed`; that the rows of a column are out of order is no reason to
(`ofPacked_ok`, `packable_or_fault`).

In between, columns are what they were apart from their order, and a column that lists no
row twice is read the same in any order (`get_of_ofPacked`).  So the entry at a position is
the value that the arrays have for it, wherever in its column it stands.

A matrix has no other index of its rows than the one that counting finds (`exists_index`),
so what holds of the pattern read by columns holds of the columns listed for a row.
-/
import EliminationOrder.Matrix.Assembly
import EliminationOrder.Proofs.Matrix.WellFormed
import EliminationOrder.Proofs.Matrix.Pattern

namespace EliminationOrder

namespace PackedColumns

variable {α : Type} {packed : PackedColumns α} {offsets : List Nat} {nrows ncols : Nat}

/-! ### Before and after sorting -/

/-- What sorted columns have to be like. -/
structure Checked (nrows ncols : Nat) (offsets : List Nat) (packed : PackedColumns α)
    (columns : List (Column α)) : Prop where
  length_offsets : offsets.length = ncols + 1
  boundaries : Boundaries packed.rowIds.size offsets
  inRange : ∀ col ∈ columns, col.InRange nrows
  ascending : ∀ col ∈ columns, col.Ascending
  size_values : packed.values.size = packed.rowIds.size

/-- Sorted columns pass the checks just when the columns they come from are packed rightly. -/
theorem checked_sorted_iff {sorted : PackedColumns α} (h : SortedAt offsets packed sorted) :
    Checked nrows ncols offsets sorted (sorted.entriesBetween offsets) ↔
      Packable nrows ncols offsets packed := by
  constructor
  · intro hchecked
    refine ⟨hchecked.length_offsets, h.size_rowIds ▸ hchecked.boundaries, ?_, ?_, ?_⟩
    · rw [← h.size_values, ← h.size_rowIds]
      exact hchecked.size_values
    · intro col hcol e he
      refine hchecked.inRange col.sort ?_ e (col.sort_perm.mem_iff.mpr he)
      rw [h.entriesBetween]
      exact List.mem_map_of_mem hcol
    · intro col hcol
      have hascending : col.sort.Ascending := by
        refine hchecked.ascending col.sort ?_
        rw [h.entriesBetween]
        exact List.mem_map_of_mem hcol
      exact hascending.distinct.perm col.sort_perm.symm
  · intro hpackable
    refine ⟨hpackable.length_offsets, h.size_rowIds ▸ hpackable.boundaries, ?_, ?_, ?_⟩
    · rw [h.entriesBetween]
      intro col hcol e he
      obtain ⟨old, hold, rfl⟩ := List.mem_map.mp hcol
      exact hpackable.inRange old hold e (old.sort_perm.mem_iff.mp he)
    · rw [h.entriesBetween]
      intro col hcol
      obtain ⟨old, hold, rfl⟩ := List.mem_map.mp hcol
      exact (hpackable.distinct old hold).sort_ascending
    · rw [h.size_values, h.size_rowIds]
      exact hpackable.size_values

/-- A column that lists no row twice holds, in a row, the value beside it in the arrays. -/
theorem lookup_sort_entries {first last i : Nat} {x : α} (h : packed.Holds first last)
    (hdistinct : (packed.entries first last).Distinct) :
    List.lookup i (packed.entries first last).sort = some x ↔
      ∃ k, (first ≤ k ∧ k < last) ∧ packed.rowIds[k]? = some i ∧ packed.values[k]? = some x := by
  rw [Column.lookup_sort hdistinct, Column.lookup_eq_some_iff hdistinct, mem_entries h]

end PackedColumns

namespace SparseMatrix

open PackedColumns

variable {α : Type} [Entry α] {nrows ncols : Nat} {offsets rowIds : List Nat} {values : List α}
  {packed : PackedColumns α} {columns : List (Column α)} {a b : SparseMatrix α}

/-- A matrix is determined by its columns. -/
theorem eq_of_columns (hrows : a.nrows = b.nrows) (hcolumns : a.columns = b.columns) : a = b := by
  obtain ⟨nrows, columns, rows, _, _, rfl⟩ := a
  obtain ⟨nrows', columns', rows', _, _, rfl⟩ := b
  obtain rfl : nrows = nrows' := hrows
  obtain rfl : columns = columns' := hcolumns
  rfl

/-! ### The checks at the end -/

theorem ofSorted_ok (h : Checked nrows ncols offsets packed columns) :
    ∃ a, ofSorted nrows ncols offsets packed columns = .ok a ∧ a.nrows = nrows ∧
      a.columns = columns.toArray := by
  obtain ⟨index, hindex, hcomplete, -⟩ := PackedRows.ofPositions_positionsFrom nrows columns
  unfold ofSorted
  split
  · next e he => exact absurd (hindex.symm.trans he) (by simp)
  · next index' hindex' =>
      obtain rfl : index = index' := Except.ok.inj (hindex.symm.trans hindex')
      rw [if_neg (not_not.mpr h.length_offsets), if_neg (not_not.mpr h.boundaries),
        dif_pos h.inRange, dif_pos h.ascending, if_neg (not_not.mpr h.size_values.symm),
        if_neg (not_not.mpr hcomplete)]
      exact ⟨_, rfl, rfl, rfl⟩

/-- Whatever fails the checks is a fault. -/
theorem checked_or_fault (nrows ncols : Nat) (offsets : List Nat) (packed : PackedColumns α)
    (columns : List (Column α)) :
    Checked nrows ncols offsets packed columns ∨
      ∃ f, ofSorted nrows ncols offsets packed columns = .error (.fault f) := by
  obtain ⟨index, hindex, -, -⟩ := PackedRows.ofPositions_positionsFrom nrows columns
  unfold ofSorted
  split
  · next e he => exact absurd (hindex.symm.trans he) (by simp)
  · by_cases hlen : offsets.length = ncols + 1
    · rw [if_neg (not_not.mpr hlen)]
      by_cases hboundaries : Boundaries packed.rowIds.size offsets
      · rw [if_neg (not_not.mpr hboundaries)]
        by_cases hrange : ∀ col ∈ columns, col.InRange nrows
        · rw [dif_pos hrange]
          by_cases hascending : ∀ col ∈ columns, col.Ascending
          · rw [dif_pos hascending]
            by_cases hsize : packed.rowIds.size = packed.values.size
            · exact Or.inl ⟨hlen, hboundaries, hrange, hascending, hsize.symm⟩
            · exact Or.inr ⟨_, if_pos hsize⟩
          · exact Or.inr ⟨_, dif_neg hascending⟩
        · exact Or.inr ⟨_, dif_neg hrange⟩
      · exact Or.inr ⟨_, if_pos hboundaries⟩
    · exact Or.inr ⟨_, if_pos hlen⟩

/-! ### Packed arrays -/

/-- Columns that lie in the arrays are sorted, read and then checked. -/
theorem ofPacked_eq_ofSorted (nrows ncols : Nat)
    (h : offsets.IsChain (ofLists rowIds values).Holds) :
    ∃ sorted, SortedAt offsets (ofLists rowIds values) sorted ∧
      ofPacked nrows ncols offsets rowIds values
        = ofSorted nrows ncols offsets sorted (sorted.entriesBetween offsets) := by
  obtain ⟨sorted, hok, hsorted⟩ := sortColumns_ok h
  have hchain : offsets.IsChain sorted.Holds := h.imp fun _ _ hab =>
    (holds_congr hsorted.size_rowIds hsorted.size_values).mpr hab
  refine ⟨sorted, hsorted, ?_⟩
  rw [ofPacked, hok, Outcome.ok_bind, columns_ok hchain, Outcome.ok_bind]

/-- **Packed columns in range that list no row twice make a matrix**, in which they stand sorted. -/
theorem ofPacked_ok (h : Packable nrows ncols offsets (ofLists rowIds values)) :
    ∃ a, ofPacked nrows ncols offsets rowIds values = .ok a ∧ a.nrows = nrows ∧
      a.columns = (((ofLists rowIds values).entriesBetween offsets).map Column.sort).toArray := by
  obtain ⟨sorted, hsorted, heq⟩ := ofPacked_eq_ofSorted nrows ncols h.isChain
  rw [heq, ← hsorted.entriesBetween]
  exact ofSorted_ok ((checked_sorted_iff hsorted).mpr h)

/-- Whatever is not packed rightly is a fault. -/
theorem packable_or_fault (nrows ncols : Nat) (offsets rowIds : List Nat) (values : List α) :
    Packable nrows ncols offsets (ofLists rowIds values) ∨
      ∃ f, ofPacked nrows ncols offsets rowIds values = .error (.fault f) := by
  by_cases hchain : offsets.IsChain (ofLists rowIds values).Holds
  · obtain ⟨sorted, hsorted, heq⟩ := ofPacked_eq_ofSorted nrows ncols hchain
    rw [heq, ← checked_sorted_iff hsorted]
    exact checked_or_fault nrows ncols offsets sorted _
  · exact Or.inr ⟨_, by rw [ofPacked, sortColumns_eq_error hchain]; rfl⟩

/-- **A matrix comes of arrays just when they are packed rightly**, and then has their columns, sorted. -/
theorem ofPacked_eq_ok : ofPacked nrows ncols offsets rowIds values = .ok a ↔
    Packable nrows ncols offsets (ofLists rowIds values) ∧ a.nrows = nrows ∧
      a.columns = (((ofLists rowIds values).entriesBetween offsets).map Column.sort).toArray := by
  constructor
  · intro hok
    rcases packable_or_fault nrows ncols offsets rowIds values with h | h
    · obtain ⟨b, hb, hnrows, hcolumns⟩ := ofPacked_ok h
      obtain rfl : a = b := Except.ok.inj (hok.symm.trans hb)
      exact ⟨h, hnrows, hcolumns⟩
    · obtain ⟨f, hf⟩ := h
      exact absurd (hok.symm.trans hf) (by simp)
  · intro h
    obtain ⟨h, hnrows, hcolumns⟩ := h
    obtain ⟨b, hb, hnrows', hcolumns'⟩ := ofPacked_ok h
    rw [hb, eq_of_columns (hnrows'.trans hnrows.symm) (hcolumns'.trans hcolumns.symm)]

/-! ### What the matrix holds -/

theorem ncols_of_ofPacked (h : ofPacked nrows ncols offsets rowIds values = .ok a) :
    a.ncols = ncols := by
  obtain ⟨hpackable, -, hcolumns⟩ := ofPacked_eq_ok.mp h
  rw [SparseMatrix.ncols, hcolumns, List.size_toArray, List.length_map, length_entriesBetween,
    hpackable.length_offsets, Nat.add_sub_cancel]

/-- Sorting moves entries about and loses none. -/
theorem storedCount_of_ofPacked (h : ofPacked nrows ncols offsets rowIds values = .ok a) :
    a.storedCount = rowIds.length := by
  obtain ⟨hpackable, -, hcolumns⟩ := ofPacked_eq_ok.mp h
  have hlen := length_flatten_entriesBetween hpackable.isChain hpackable.boundaries.1
    hpackable.boundaries.2.1
  have hsorted : ∀ columns : List (Column α),
      (columns.map Column.sort).flatten.length = columns.flatten.length := by
    intro columns
    rw [List.length_flatten, List.length_flatten, List.map_map]
    exact congrArg List.sum (List.map_congr_left fun col _ => col.sort_perm.length_eq)
  rw [storedCount, hcolumns, List.toList_toArray, hsorted]
  exact (Nat.zero_add _).symm.trans hlen

/-- **The entry at a position is the value that the arrays have for it**, and zero if they have none. -/
theorem get_of_ofPacked (h : ofPacked nrows ncols offsets rowIds values = .ok a) {i j : Nat}
    (hj : j < ncols) :
    (∀ k, InColumn offsets j k → rowIds[k]? = some i →
      ∃ x, values[k]? = some x ∧ a.get i j = .ok x) ∧
    ((∀ k, InColumn offsets j k → rowIds[k]? ≠ some i) → a.get i j = .ok 0) := by
  obtain ⟨hpackable, -, hcolumns⟩ := ofPacked_eq_ok.mp h
  obtain ⟨first, last, hfirst, hlast, hholds, hdistinct⟩ := hpackable.exists_boundaries hj
  have hget : a.get i j = .ok ((List.lookup i
      ((ofLists rowIds values).entries first last).sort).getD 0) := by
    rw [SparseMatrix.get, hcolumns, List.getElem?_toArray, List.getElem?_map,
      getElem?_entriesBetween _ hfirst hlast]
    rfl
  have hlookup : ∀ x, List.lookup i ((ofLists rowIds values).entries first last).sort = some x ↔
      ∃ k, InColumn offsets j k ∧ rowIds[k]? = some i ∧ values[k]? = some x := by
    intro x
    rw [lookup_sort_entries hholds hdistinct]
    simp only [inColumn_iff hfirst hlast, getElem?_rowIds_ofLists, getElem?_values_ofLists]
  constructor
  · intro k hk hrow
    have hlt : k < values.length :=
      Nat.lt_of_lt_of_eq (List.getElem?_eq_some_iff.mp hrow).1 hpackable.size_values.symm
    have hvalue : values[k]? = some values[k] := List.getElem?_eq_getElem hlt
    refine ⟨values[k], hvalue, ?_⟩
    rw [hget, (hlookup _).mpr ⟨k, hk, hrow, hvalue⟩]
    rfl
  · intro hnone
    have hlookup' : List.lookup i ((ofLists rowIds values).entries first last).sort = none := by
      refine Option.eq_none_iff_forall_ne_some.mpr fun x hx => ?_
      obtain ⟨k, hk, hrow, -⟩ := (hlookup x).mp hx
      exact hnone k hk hrow
    rw [hget, hlookup']
    rfl

/-- **Packed arrays make a matrix just when they are well formed, and it means what they say**:
the entry at a position is the one value that stands beside its row in its column, and zero if
there is none.  All other arrays are a fault. -/
theorem ofPacked_wellFormed (nrows ncols : Nat) (offsets rowIds : List Nat) (values : List α) :
    ((∃ a, ofPacked nrows ncols offsets rowIds values = .ok a) ↔
      WellFormed nrows ncols offsets rowIds values) ∧
    (¬ WellFormed nrows ncols offsets rowIds values →
      ∃ f, ofPacked nrows ncols offsets rowIds values = .error (.fault f)) ∧
    ∀ a, ofPacked nrows ncols offsets rowIds values = .ok a →
      a.nrows = nrows ∧ a.ncols = ncols ∧ a.storedCount = rowIds.length ∧
      ∀ j < ncols, ∀ i,
        (∀ k, InColumn offsets j k → rowIds[k]? = some i →
          (∀ l, InColumn offsets j l → rowIds[l]? = some i → l = k) ∧
            ∃ x, values[k]? = some x ∧ a.get i j = .ok x) ∧
        ((∀ k, InColumn offsets j k → rowIds[k]? ≠ some i) → a.get i j = .ok 0) := by
  refine ⟨⟨?_, ?_⟩, ?_, ?_⟩
  · intro h
    obtain ⟨a, hok⟩ := h
    exact wellFormed_iff_packable.mpr (ofPacked_eq_ok.mp hok).1
  · intro h
    obtain ⟨a, hok, -⟩ := ofPacked_ok (wellFormed_iff_packable.mp h)
    exact ⟨a, hok⟩
  · intro h
    rw [wellFormed_iff_packable] at h
    exact (packable_or_fault nrows ncols offsets rowIds values).resolve_left h
  · intro a hok
    obtain ⟨hpackable, hnrows, -⟩ := ofPacked_eq_ok.mp hok
    have hwell := wellFormed_iff_packable.mpr hpackable
    refine ⟨hnrows, ncols_of_ofPacked hok, storedCount_of_ofPacked hok, ?_⟩
    intro j hj i
    obtain ⟨hlisted, hnone⟩ := get_of_ofPacked hok (i := i) hj
    refine ⟨?_, hnone⟩
    intro k hk hrow
    exact ⟨fun l hl hrow' => hwell.distinct j l k hl hk (hrow'.trans hrow.symm), hlisted k hk hrow⟩

/-- Rows out of order are accepted and read in their places; a row listed twice is not. -/
theorem ofPacked_wellFormed_unsorted :
    WellFormed 3 3 [0, 3, 5, 7] [2, 0, 1, 1, 0, 2, 1] ([3, 1, 2, 5, 4, 7, 6] : List UInt8) ∧
      (∃ a, ofPacked 3 3 [0, 3, 5, 7] [2, 0, 1, 1, 0, 2, 1] ([3, 1, 2, 5, 4, 7, 6] : List UInt8) = .ok a ∧
        a.storedCount = 7 ∧ a.get 0 0 = .ok 1 ∧ a.get 2 1 = .ok 0) ∧
      ¬ WellFormed 3 1 [0, 2] [1, 1] ([3, 4] : List UInt8) := by
  obtain ⟨haccepts, -, hmeans⟩ := ofPacked_wellFormed 3 3 [0, 3, 5, 7] [2, 0, 1, 1, 0, 2, 1]
    ([3, 1, 2, 5, 4, 7, 6] : List UInt8)
  obtain ⟨htwice, -, -⟩ := ofPacked_wellFormed 3 1 [0, 2] [1, 1] ([3, 4] : List UInt8)
  obtain ⟨a, hok⟩ : ∃ a, ofPacked 3 3 [0, 3, 5, 7] [2, 0, 1, 1, 0, 2, 1]
      ([3, 1, 2, 5, 4, 7, 6] : List UInt8) = .ok a := ⟨_, rfl⟩
  obtain ⟨-, -, hcount, hentries⟩ := hmeans a hok
  refine ⟨haccepts.mp ⟨a, hok⟩, ⟨a, hok, hcount, ?_, ?_⟩, ?_⟩
  · -- The entry of row 0 stands second in the first column.
    obtain ⟨-, x, hx, hget⟩ := (hentries 0 (by decide) 0).1 1 ⟨0, 3, rfl, rfl, by decide, by decide⟩ rfl
    obtain rfl : 1 = x := Option.some.inj hx
    exact hget
  · refine (hentries 1 (by decide) 2).2 fun k hk => ?_
    have hbounds : 3 ≤ k ∧ k < 5 := (inColumn_iff rfl rfl).mp hk
    obtain rfl | rfl : k = 3 ∨ k = 4 := by omega
    · decide
    · decide
  · intro hwell
    obtain ⟨b, hb⟩ := htwice.mpr hwell
    cases hb

/-! ### The index of rows -/

theorem indexedRow_eq_nonzeroColumns {i : Nat} (hi : i < a.nrows) :
    a.indexedRow i = .ok ((StoredMatrix.sparse a).nonzeroColumns i) :=
  StoredMatrix.rowPattern_eq (a := .sparse a) hi

theorem exists_indexedRow {i : Nat} (hi : i < a.nrows) :
    ∃ row, a.indexedRow i = .ok row ∧ row.Pairwise (· < ·) ∧
      ∀ j, j ∈ row ↔ j < a.ncols ∧ ∃ x, a.get i j = .ok x ∧ Entry.isZero x = false := by
  refine ⟨_, indexedRow_eq_nonzeroColumns hi, List.Pairwise.filter _ List.pairwise_lt_range, ?_⟩
  intro j
  rw [StoredMatrix.mem_nonzeroColumns]
  exact ⟨fun h => h.2, fun h => ⟨hi, h⟩⟩

/-- The index of a matrix is the one that is found by counting. -/
theorem exists_index (a : SparseMatrix α) :
    ∃ index, PackedRows.ofPositions a.nrows (positionsFrom a.nrows 0 a.columns.toList) = .ok index ∧
      index.Complete a.nrows ∧ ∀ i < a.nrows, a.indexedRow i = .ok (index.row i) := by
  obtain ⟨index, hindex, hcomplete, hrows⟩ :=
    PackedRows.ofPositions_positionsFrom a.nrows a.columns.toList
  refine ⟨index, hindex, hcomplete, ?_⟩
  intro i hi
  have hrow : a.rows[i]? = some (index.row i) := by
    rw [a.rows_eq, show a.columns = a.columns.toList.toArray from rfl, ← hrows, PackedRows.rows]
    simp [hi]
  rw [indexedRow, hrow]

/-- **Rows are indexed exactly.**  The index of any matrix, whatever it was put together from, is
the one that counting the entries of its rows finds, and it lists for every row the columns in
which the entry read by column is not zero, each of them once and in ascending order.  Entries
that are stored but zero are not among them. -/
theorem indexedRow_exact (a : SparseMatrix α) :
    ∃ index, PackedRows.ofPositions a.nrows (positionsFrom a.nrows 0 a.columns.toList) = .ok index ∧
      index.Complete a.nrows ∧
      ∀ i < a.nrows, a.indexedRow i = .ok (index.row i) ∧ (index.row i).Pairwise (· < ·) ∧
        ∀ j, j ∈ index.row i ↔ j < a.ncols ∧ ∃ x, a.get i j = .ok x ∧ Entry.isZero x = false := by
  obtain ⟨index, hindex, hcomplete, hrows⟩ := exists_index a
  refine ⟨index, hindex, hcomplete, ?_⟩
  intro i hi
  have hrow : index.row i = (StoredMatrix.sparse a).nonzeroColumns i :=
    Except.ok.inj ((hrows i hi).symm.trans (indexedRow_eq_nonzeroColumns hi))
  refine ⟨hrows i hi, ?_, ?_⟩
  · rw [hrow]
    exact List.Pairwise.filter _ List.pairwise_lt_range
  · intro j
    rw [hrow, StoredMatrix.mem_nonzeroColumns]
    exact ⟨fun h => h.2, fun h => ⟨hi, h⟩⟩

/-- A zero is listed in the second column, and values cancel in the third. -/
def zerosStored : SparseMatrix Int64 where
  nrows := 3
  columns := #[[(0, 1)], [(0, 2), (1, 0)], [(0, 0)]]
  rows := #[[0, 1], [], []]
  ascending := by decide
  inRange := by decide
  rows_eq := rfl

/-- Zeros are stored, and are in no row of the index. -/
theorem indexedRow_exact_zerosStored :
    (ofTriplets 3 3 ([(0, 0, 1), (0, 2, 5), (1, 1, 0), (0, 2, -5), (0, 1, 2)] :
        List (Nat × Nat × Int64))).toOption.map (·.columns) = some zerosStored.columns ∧
      zerosStored.storedCount = 4 ∧ zerosStored.indexedRow 0 = .ok [0, 1] ∧
      ∀ j, j ∈ [0, 1] ↔
        j < zerosStored.ncols ∧ ∃ x, zerosStored.get 0 j = .ok x ∧ Entry.isZero x = false := by
  obtain ⟨index, -, -, hrows⟩ := indexedRow_exact zerosStored
  obtain ⟨hindexed, -, hmem⟩ := hrows 0 (by decide)
  have hrow : zerosStored.indexedRow 0 = .ok [0, 1] := rfl
  rw [← Except.ok.inj (hrow.symm.trans hindexed)] at hmem
  exact ⟨by decide +kernel, rfl, hrow, hmem⟩

end SparseMatrix

end EliminationOrder

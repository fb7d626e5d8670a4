/-
The arrays that a matrix is stored in.

The columns of a matrix, laid out one after the other, make three arrays: the boundaries
between the columns, the rows and the values.  Columns that are packed come out again, so
the three together with the number of rows say which matrix it is (`eq_iff_arrays`); the
index of the rows adds nothing to them.

A matrix that is put together from packed arrays is stored in just these, once their columns
have been sorted in place (`arrays_of_ofPacked`).  Here the induction is on the boundaries:
what stands between the first one and the last one is what stands between each two that
follow one another, joined.
-/
import EliminationOrder.Proofs.Matrix.Packing

namespace EliminationOrder

variable {α : Type}

/-! ### Columns that are joined -/

namespace PackedColumns

variable {packed : PackedColumns α} {first next last : Nat}

/-- Entries up to a boundary and from there on are the entries of both parts. -/
theorem entries_append (h : packed.Holds first next) (hle : next ≤ last) :
    packed.entries first next ++ packed.entries next last = packed.entries first last := by
  have hjoin : ∀ {β : Type} (xs : Array β), (xs.extract first next).toList
      ++ (xs.extract next last).toList = (xs.extract first last).toList := by
    intro β xs
    rw [← Array.toList_append, Array.extract_append_extract, Nat.min_eq_left h.le,
      Nat.max_eq_right hle]
  have hlen : (packed.rowIds.extract first next).toList.length
      = (packed.values.extract first next).toList.length := by
    have := h.le_rowIds
    have := h.le_values
    rw [Array.length_toList, Array.length_toList, Array.size_extract, Array.size_extract]
    omega
  unfold entries
  rw [← List.zip_append hlen, hjoin, hjoin]

/-- **Joined, the columns are all that stands between the outer boundaries.** -/
theorem flatten_entriesBetween : ∀ {offsets : List Nat} {first last : Nat},
    offsets.IsChain packed.Holds → offsets.head? = some first → offsets.getLast? = some last →
      (packed.entriesBetween offsets).flatten = packed.entries first last
  | [b], first, last, _, hfirst, hlast => by
      obtain rfl : b = first := by simpa using hfirst
      obtain rfl : b = last := by simpa using hlast
      simp [entriesBetween, entries]
  | b :: c :: offsets, first, last, h, hfirst, hlast => by
      obtain rfl : b = first := by simpa using hfirst
      obtain ⟨hcol, hrest⟩ := List.isChain_cons_cons.mp h
      rw [List.getLast?_cons_cons] at hlast
      have hlen := length_flatten_entriesBetween hrest rfl hlast
      rw [entriesBetween, List.flatten_cons, flatten_entriesBetween hrest rfl hlast]
      exact entries_append hcol (by omega)

/-- The lengths of the columns give their boundaries back. -/
theorem columnOffsets_entriesBetween : ∀ {offsets : List Nat} {first : Nat},
    offsets.IsChain packed.Holds → offsets.head? = some first →
      columnOffsets first (packed.entriesBetween offsets) = offsets
  | [b], first, _, hfirst => by
      obtain rfl : b = first := by simpa using hfirst
      rfl
  | b :: c :: offsets, first, h, hfirst => by
      obtain rfl : b = first := by simpa using hfirst
      obtain ⟨hcol, hrest⟩ := List.isChain_cons_cons.mp h
      have hlen : b + (packed.entries b c).length = c := by
        have := hcol.le
        rw [length_entries hcol]
        omega
      rw [entriesBetween, columnOffsets, hlen, columnOffsets_entriesBetween hrest rfl]

/-- What stands between the ends of the arrays is all of them. -/
theorem ofEntries_entries (hsize : packed.values.size = packed.rowIds.size) :
    ofEntries (packed.entries 0 packed.rowIds.size) = packed := by
  have hlen : packed.rowIds.toList.length = packed.values.toList.length := hsize.symm
  have hentries : packed.entries 0 packed.rowIds.size
      = packed.rowIds.toList.zip packed.values.toList := by
    unfold entries
    rw [Array.extract_size, ← hsize, Array.extract_size]
  unfold ofEntries ofLists
  rw [hentries, List.map_fst_zip (Nat.le_of_eq hlen), List.map_snd_zip (Nat.le_of_eq hlen.symm)]

end PackedColumns

/-! ### The arrays of a matrix -/

namespace SparseMatrix

variable [Entry α] {a b : SparseMatrix α}

/-- Where the columns begin, and where the last one ends. -/
def offsets (a : SparseMatrix α) : List Nat :=
  columnOffsets 0 a.columns.toList

/-- The rows and the values that are stored, column after column. -/
def packed (a : SparseMatrix α) : PackedColumns α :=
  PackedColumns.ofEntries a.columns.toList.flatten

/-- **A matrix is its arrays**, and its index of the rows follows from them. -/
theorem eq_iff_arrays : a = b ↔ a.nrows = b.nrows ∧ a.offsets = b.offsets ∧ a.packed = b.packed := by
  refine ⟨?_, ?_⟩
  · rintro rfl
    exact ⟨rfl, rfl, rfl⟩
  · intro h
    obtain ⟨hrows, hoffsets, hpacked⟩ := h
    have hcolumns : ∀ c : SparseMatrix α, c.packed.entriesBetween c.offsets = c.columns.toList :=
      fun c => PackedColumns.entriesBetween_columnOffsets c.columns.toList
    refine eq_of_columns hrows (Array.toList_inj.mp ?_)
    rw [← hcolumns a, ← hcolumns b, hoffsets, hpacked]

/-- **What is put together from packed arrays is stored in these**, with their columns sorted. -/
theorem arrays_of_ofPacked {nrows ncols : Nat} {offsets rowIds : List Nat} {values : List α}
    (h : ofPacked nrows ncols offsets rowIds values = .ok a) :
    a.offsets = offsets ∧
      PackedColumns.sortColumns offsets (PackedColumns.ofLists rowIds values) = .ok a.packed := by
  obtain ⟨hpackable, -, hcolumns⟩ := ofPacked_eq_ok.mp h
  obtain ⟨sorted, hok, hsorted⟩ := PackedColumns.sortColumns_ok hpackable.isChain
  have hchain : offsets.IsChain sorted.Holds := hpackable.isChain.imp fun _ _ hab =>
    (PackedColumns.holds_congr hsorted.size_rowIds hsorted.size_values).mpr hab
  have hsize : sorted.values.size = sorted.rowIds.size := by
    rw [hsorted.size_values, hsorted.size_rowIds, hpackable.size_values]
  have hlast : offsets.getLast? = some sorted.rowIds.size := by
    rw [hsorted.size_rowIds]
    exact hpackable.boundaries.2.1
  have hbetween : a.columns.toList = sorted.entriesBetween offsets := by
    rw [hcolumns, hsorted.entriesBetween]
  refine ⟨?_, ?_⟩
  · unfold SparseMatrix.offsets
    rw [hbetween, PackedColumns.columnOffsets_entriesBetween hchain hpackable.boundaries.1]
  · unfold SparseMatrix.packed
    rw [hok, hbetween, PackedColumns.flatten_entriesBetween hchain hpackable.boundaries.1 hlast,
      PackedColumns.ofEntries_entries hsize]

end SparseMatrix

end EliminationOrder

/-
Columns that are packed come out again.

A column begins where the lengths of those before it end (`getElem?_columnOffsets`), so the
boundaries of packed columns are in order and end with the arrays, and between two of them
stands the column that was put there (`entriesBetween_columnOffsets`).  The induction packs
the columns behind others, since the boundaries of all columns but the first do not start at
zero.

So nothing but the columns themselves can be refused (`ofColumns_eq_ok`).
-/
import EliminationOrder.Proofs.Matrix.Assembly

namespace EliminationOrder

variable {α : Type} {columns : List (Column α)}

/-! ### Where columns begin -/

theorem length_columnOffsets (columns : List (Column α)) :
    ∀ first, (columnOffsets first columns).length = columns.length + 1 := by
  induction columns with
  | nil => exact fun _ => rfl
  | cons col cols ih =>
      intro first
      rw [columnOffsets, List.length_cons, ih, List.length_cons]

/-- **A column begins after the entries of the columns before it.** -/
theorem getElem?_columnOffsets (columns : List (Column α)) :
    ∀ first k, k ≤ columns.length →
      (columnOffsets first columns)[k]? = some (first + (columns.take k).flatten.length) := by
  induction columns with
  | nil =>
      intro first k hk
      obtain rfl : k = 0 := Nat.le_zero.mp hk
      rfl
  | cons col cols ih =>
      intro first k hk
      cases k with
      | zero => rfl
      | succ k =>
          rw [columnOffsets, List.getElem?_cons_succ, ih _ k (Nat.le_of_succ_le_succ hk),
            List.take_succ_cons, List.flatten_cons, List.length_append, Nat.add_assoc]

theorem boundaries_columnOffsets (columns : List (Column α)) :
    Boundaries columns.flatten.length (columnOffsets 0 columns) := by
  refine (boundaries_iff (length_columnOffsets columns 0)).mpr ⟨?_, ?_, ?_⟩
  · rw [getElem?_columnOffsets columns 0 0 (Nat.zero_le _)]
    rfl
  · intro j b c hb hc
    have hj : j < columns.length := by
      have := (List.getElem?_eq_some_iff.mp hc).1
      rw [length_columnOffsets] at this
      omega
    rw [getElem?_columnOffsets columns 0 j (Nat.le_of_lt hj), Option.some.injEq] at hb
    rw [getElem?_columnOffsets columns 0 (j + 1) hj, Option.some.injEq] at hc
    rw [← hb, ← hc, List.take_succ_eq_append_getElem hj, List.flatten_append, List.length_append]
    omega
  · rw [getElem?_columnOffsets columns 0 _ (Nat.le_refl _), List.take_length, Nat.zero_add]

/-! ### What stands between two boundaries -/

namespace PackedColumns

/-- The arrays of entries that are listed one after the other. -/
def ofEntries (entries : Column α) : PackedColumns α :=
  ofLists (entries.map Prod.fst) (entries.map Prod.snd)

theorem entries_ofEntries (before col after : Column α) :
    (ofEntries (before ++ col ++ after)).entries before.length (before.length + col.length)
      = col := by
  have hpart : ∀ {β : Type} (f : Nat × α → β),
      (((before ++ col ++ after).map f).toArray.extract before.length
        (before.length + col.length)).toList = col.map f := by
    intro β f
    simp
  rw [entries, ofEntries, ofLists]
  simp only [hpart]
  exact (List.zip_of_prod rfl rfl).symm

theorem columnOffsets_eq_cons (first : Nat) (columns : List (Column α)) :
    ∃ offsets, columnOffsets first columns = first :: offsets := by
  cases columns with
  | nil => exact ⟨[], rfl⟩
  | cons col cols => exact ⟨columnOffsets (first + col.length) cols, rfl⟩

/-- Columns that are packed behind others come out again. -/
theorem entriesBetween_append (columns : List (Column α)) : ∀ before : Column α,
    (ofEntries (before ++ columns.flatten)).entriesBetween (columnOffsets before.length columns)
      = columns := by
  induction columns with
  | nil => exact fun _ => rfl
  | cons col cols ih =>
      intro before
      have hrest := ih (before ++ col)
      rw [List.length_append] at hrest
      obtain ⟨offsets, hoffsets⟩ := columnOffsets_eq_cons (before.length + col.length) cols
      rw [columnOffsets, hoffsets, entriesBetween, ← hoffsets, List.flatten_cons,
        ← List.append_assoc, entries_ofEntries, hrest]

/-- **Columns that are packed come out again.** -/
theorem entriesBetween_columnOffsets (columns : List (Column α)) :
    (ofEntries columns.flatten).entriesBetween (columnOffsets 0 columns) = columns :=
  entriesBetween_append columns []

theorem packable_columnOffsets {nrows : Nat} :
    Packable nrows columns.length (columnOffsets 0 columns) (ofEntries columns.flatten) ↔
      (∀ col ∈ columns, col.InRange nrows) ∧ ∀ col ∈ columns, col.Distinct := by
  constructor
  · intro h
    have hrange := h.inRange
    have hdistinct := h.distinct
    rw [entriesBetween_columnOffsets] at hrange hdistinct
    exact ⟨hrange, hdistinct⟩
  · intro h
    obtain ⟨hrange, hdistinct⟩ := h
    have hsize : (ofEntries columns.flatten).rowIds.size = columns.flatten.length :=
      List.length_map ..
    have hvalues : (ofEntries columns.flatten).values.size = columns.flatten.length :=
      List.length_map ..
    refine ⟨length_columnOffsets columns 0, ?_, hvalues.trans hsize.symm, ?_, ?_⟩
    · rw [hsize]
      exact boundaries_columnOffsets columns
    · rw [entriesBetween_columnOffsets]
      exact hrange
    · rw [entriesBetween_columnOffsets]
      exact hdistinct

end PackedColumns

namespace SparseMatrix

variable [Entry α] {nrows : Nat} {a : SparseMatrix α}

theorem ofColumns_eq_ok : ofColumns nrows columns = .ok a ↔
    ((∀ col ∈ columns, col.InRange nrows) ∧ ∀ col ∈ columns, col.Distinct) ∧
      a.nrows = nrows ∧ a.columns = (columns.map Column.sort).toArray := by
  rw [ofColumns, ofPacked_eq_ok, ← PackedColumns.ofEntries, PackedColumns.packable_columnOffsets,
    PackedColumns.entriesBetween_columnOffsets]

/-- **Columns in range that list no row twice make a matrix**, in which they stand sorted. -/
theorem ofColumns_ok (hrange : ∀ col ∈ columns, col.InRange nrows)
    (hdistinct : ∀ col ∈ columns, col.Distinct) :
    ∃ a, ofColumns nrows columns = .ok a ∧ a.nrows = nrows ∧
      a.columns = (columns.map Column.sort).toArray := by
  have h := PackedColumns.packable_columnOffsets.mpr ⟨hrange, hdistinct⟩
  obtain ⟨a, hok, hnrows, hcolumns⟩ := ofPacked_ok h
  rw [← PackedColumns.ofEntries, PackedColumns.entriesBetween_columnOffsets] at hcolumns
  exact ⟨a, hok, hnrows, hcolumns⟩

theorem ncols_of_ofColumns (h : ofColumns nrows columns = .ok a) : a.ncols = columns.length :=
  ncols_of_ofPacked h

theorem storedCount_of_ofColumns (h : ofColumns nrows columns = .ok a) :
    a.storedCount = columns.flatten.length :=
  (storedCount_of_ofPacked h).trans (List.length_map ..)

theorem get_of_ofColumns (h : ofColumns nrows columns = .ok a) {j : Nat} {col : Column α}
    (hcol : columns[j]? = some col) (i : Nat) :
    a.get i j = .ok ((List.lookup i col).getD 0) := by
  obtain ⟨⟨-, hdistinct⟩, -, hcolumns⟩ := ofColumns_eq_ok.mp h
  rw [SparseMatrix.get, hcolumns, List.getElem?_toArray, List.getElem?_map, hcol, Option.map_some]
  simp only [Column.lookup_sort (hdistinct col (List.mem_of_getElem? hcol))]

end SparseMatrix

end EliminationOrder

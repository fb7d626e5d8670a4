/-
Reordering a sparse matrix on both sides.

`permuteSymmetric` takes the columns in the order `p` and gives each stored row the
position that it has in `p`; the result goes through `ofColumns` like any other list of
columns.  Positions are one to one, so no column lists a row twice afterwards, and nothing
is refused.

What is stored at `(k, l)` in the result is what is stored at `(p[k], p[l])`, zeros among it
(`Rearranged`).  So entry `(k, l)` of the result is entry `(p[k], p[l])` of the matrix
(`Reordered`), and what is joined in the result follows from that (`Reordered.joined_iff`).
-/
import EliminationOrder.Proofs.Graph.Reachable
import EliminationOrder.Proofs.Matrix.Packing
import EliminationOrder.Proofs.Inverse

namespace EliminationOrder

open Permutation

namespace SparseMatrix

variable {α : Type} [Entry α] {a b : SparseMatrix α} {p : List Nat}

/-- `b` reads as `a` with the rows and the columns in the order `p`. -/
structure Reordered (a : SparseMatrix α) (p : List Nat) (b : SparseMatrix α) : Prop where
  nrows : b.nrows = a.nrows
  ncols : b.ncols = a.ncols
  get : ∀ k l, k < a.nrows → l < a.ncols → b.get k l = a.get (entry p k) (entry p l)

/-! ### The columns that come out -/

/-- The stored entries of column `c`, none where there is no such column. -/
def column (a : SparseMatrix α) (c : Nat) : Column α :=
  a.columns[c]?.getD []

theorem column_inRange (a : SparseMatrix α) (c : Nat) : Column.InRange a.nrows (a.column c) := by
  unfold column
  cases hc : a.columns[c]? with
  | none => exact fun e he => absurd he List.not_mem_nil
  | some col => exact a.inRange col (Array.mem_of_getElem? hc)

theorem column_distinct (a : SparseMatrix α) (c : Nat) : Column.Distinct (a.column c) := by
  unfold column
  cases hc : a.columns[c]? with
  | none => exact List.nodup_nil
  | some col => exact (a.ascending col (Array.mem_of_getElem? hc)).distinct

theorem get_eq_lookup {j : Nat} (hj : j < a.ncols) (i : Nat) :
    a.get i j = .ok ((List.lookup i (a.column j)).getD 0) :=
  StoredMatrix.sparse_get hj i

/-- Beyond the last column nothing is stored. -/
theorem column_eq_nil {c : Nat} (hc : a.ncols ≤ c) : a.column c = [] := by
  unfold column
  rw [Array.getElem?_eq_none hc]
  rfl

theorem columns_eq_map_range (a : SparseMatrix α) :
    a.columns.toList = (List.range a.ncols).map a.column := by
  refine List.ext_getElem (by simp [ncols]) fun c hc _ => ?_
  simp [column, Array.getElem?_eq_getElem (show c < a.columns.size from hc)]

/-- `b` stores what `a` does, with the rows and the columns in the order `p`. -/
structure Rearranged (a : SparseMatrix α) (p : List Nat) (b : SparseMatrix α) : Prop where
  nrows : b.nrows = a.nrows
  ncols : b.ncols = a.ncols
  mem_iff : ∀ k l x, (k, x) ∈ b.column l ↔ (entry p k, x) ∈ a.column (entry p l)

/-- The columns of `a` in the order `p`, with their rows at the given positions. -/
def reorderedColumns (a : SparseMatrix α) (p : List Nat) (position : Nat → Nat) :
    List (Column α) :=
  p.map fun c => Column.rename position (a.column c)

/-- The columns that come out stand where they were put, and sorted. -/
theorem column_of_columns (hsquare : a.nrows = a.ncols) (hp : p.Perm (List.range a.nrows))
    {position : Nat → Nat}
    (hcolumns : b.columns = ((a.reorderedColumns p position).map Column.sort).toArray) (l : Nat) :
    b.column l = Column.sort (Column.rename position (a.column (entry p l))) := by
  have hlen : p.length = a.ncols := by rw [length_eq hp, hsquare]
  by_cases hl : l < p.length
  · simp [column, hcolumns, reorderedColumns, getElem?_eq_entry hl]
  · -- Neither matrix has such a column.
    have hcols : b.ncols = p.length := by simp [ncols, hcolumns, reorderedColumns]
    rw [entry_eq_self (Nat.le_of_not_lt hl), column_eq_nil (by omega), column_eq_nil (by omega)]
    rfl

/-- Reordering moves entries about and loses none. -/
theorem length_reorderedColumns (hsquare : a.nrows = a.ncols) (hp : p.Perm (List.range a.nrows))
    (position : Nat → Nat) :
    (a.reorderedColumns p position).flatten.length = a.storedCount := by
  have hlengths : (a.reorderedColumns p position).map List.length
      = p.map fun c => (a.column c).length := by
    rw [reorderedColumns, List.map_map]
    exact List.map_congr_left fun c _ => List.length_map ..
  rw [List.length_flatten, hlengths, (hp.map _).sum_eq, hsquare, storedCount, List.length_flatten,
    columns_eq_map_range, List.map_map]
  rfl

section Positions

variable (hp : p.Perm (List.range a.nrows)) {position : Nat → Nat}
  (hposition : ∀ k < a.nrows, position (entry p k) = k)

include hp hposition

theorem position_lt {r : Nat} (hr : r < a.nrows) : position r < a.nrows := by
  obtain ⟨m, hm, rfl⟩ := exists_entry_eq hp hr
  rw [hposition m hm]
  exact hm

theorem position_eq_iff {r : Nat} (hr : r < a.nrows) (k : Nat) :
    position r = k ↔ r = entry p k := by
  obtain ⟨m, hm, rfl⟩ := exists_entry_eq hp hr
  rw [hposition m hm, (entry_injective hp).eq_iff]

theorem reorderedColumns_inRange :
    ∀ col ∈ a.reorderedColumns p position, Column.InRange a.nrows col := by
  intro col hcol
  obtain ⟨c, -, rfl⟩ := List.mem_map.mp hcol
  intro e he
  obtain ⟨old, hold, rfl⟩ := List.mem_map.mp he
  exact position_lt hp hposition (a.column_inRange c old hold)

theorem reorderedColumns_distinct :
    ∀ col ∈ a.reorderedColumns p position, Column.Distinct col := by
  intro col hcol
  obtain ⟨c, -, rfl⟩ := List.mem_map.mp hcol
  refine (a.column_distinct c).rename fun e he e' he' heq => ?_
  rw [(position_eq_iff hp hposition (a.column_inRange c e he) _).mp heq,
    ← (position_eq_iff hp hposition (a.column_inRange c e' he') _).mp rfl]

/-- **What is stored at `(k, l)` comes from `(p[k], p[l])`.** -/
theorem rearranged_of_columns (hsquare : a.nrows = a.ncols) (hrows : b.nrows = a.nrows)
    (hcolumns : b.columns = ((a.reorderedColumns p position).map Column.sort).toArray) :
    Rearranged a p b := by
  have hlen : p.length = a.ncols := by rw [length_eq hp, hsquare]
  refine ⟨hrows, by simp [ncols, hcolumns, reorderedColumns, hlen], ?_⟩
  intro k l x
  rw [column_of_columns hsquare hp hcolumns, (Column.sort_perm _).mem_iff,
    Column.rename, List.mem_map]
  constructor
  · intro h
    obtain ⟨⟨r, y⟩, he, heq⟩ := h
    obtain ⟨hk, rfl⟩ := Prod.mk.inj heq
    obtain rfl := (position_eq_iff hp hposition (a.column_inRange _ _ he) k).mp hk
    exact he
  · intro h
    exact ⟨_, h, by rw [(position_eq_iff hp hposition (a.column_inRange _ _ h) k).mpr rfl]⟩

end Positions

/-- **A square matrix can be reordered by any order of its rows.** -/
theorem permuteSymmetric_ok (hsquare : a.nrows = a.ncols) (hp : p.Perm (List.range a.nrows)) :
    ∃ b, a.permuteSymmetric p = .ok b ∧ Rearranged a p b ∧ b.storedCount = a.storedCount := by
  have hlen : p.length = a.ncols := by rw [length_eq hp, hsquare]
  obtain ⟨q, hinverse, -, hq⟩ := inverse_leadsBack hp
  let position : Nat → Nat := fun r => q.toArray[r]?.getD 0
  have hposition : ∀ k < a.nrows, position (entry p k) = k := by
    intro k hk
    simp [position, hq k _ (getElem?_eq_entry (by rw [length_eq hp]; exact hk))]
  obtain ⟨b, hb, hrows, hcolumns⟩ := ofColumns_ok (reorderedColumns_inRange hp hposition)
    (reorderedColumns_distinct hp hposition)
  refine ⟨b, ?_, rearranged_of_columns hp hposition hsquare hrows hcolumns, ?_⟩
  · unfold permuteSymmetric
    rw [if_neg (not_not.mpr hsquare), if_neg (not_not.mpr hlen), hinverse]
    exact hb
  · rw [storedCount_of_ofColumns hb, length_reorderedColumns hsquare hp]

/-! ### The entries that come out -/

namespace Rearranged

variable (h : Rearranged a p b)

include h

theorem lookup_eq (k l : Nat) :
    List.lookup k (b.column l) = List.lookup (entry p k) (a.column (entry p l)) := by
  refine Option.ext fun x => ?_
  rw [Column.lookup_eq_some_iff (b.column_distinct l),
    Column.lookup_eq_some_iff (a.column_distinct _), h.mem_iff]

/-- **Entry `(k, l)` comes from `(p[k], p[l])`.** -/
theorem reordered (hsquare : a.nrows = a.ncols) (hp : p.Perm (List.range a.nrows)) :
    Reordered a p b := by
  refine ⟨h.nrows, h.ncols, ?_⟩
  intro k l _ hl
  have hentry : entry p l < a.ncols := by
    rw [← hsquare]
    exact entry_lt hp (by omega)
  rw [get_eq_lookup (by rw [h.ncols]; exact hl), get_eq_lookup hentry, h.lookup_eq]

end Rearranged

/-! ### The pattern that comes out -/

namespace Reordered

variable (h : Reordered a p b) (hsquare : a.nrows = a.ncols) (hp : p.Perm (List.range a.nrows))

include h hsquare hp

theorem nonzero_iff (k l : Nat) :
    (StoredMatrix.sparse b).Nonzero k l ↔
      (StoredMatrix.sparse a).Nonzero (entry p k) (entry p l) := by
  unfold StoredMatrix.Nonzero
  show k < b.nrows ∧ l < b.ncols ∧ (∃ x, b.get k l = .ok x ∧ _) ↔
    entry p k < a.nrows ∧ entry p l < a.ncols ∧ ∃ x, a.get (entry p k) (entry p l) = .ok x ∧ _
  rw [h.nrows, h.ncols, ← hsquare, entry_lt_iff hp, entry_lt_iff hp]
  refine and_congr_right fun hk => and_congr_right fun hl => ?_
  rw [h.get k l hk (by omega)]

/-- Two rows are joined in the result just when the rows they come from are. -/
theorem joined_iff (k l : Nat) :
    (StoredMatrix.sparse b).Joined k l ↔
      (StoredMatrix.sparse a).Joined (entry p k) (entry p l) := by
  unfold StoredMatrix.Joined
  rw [h.nonzero_iff hsquare hp, h.nonzero_iff hsquare hp, (entry_injective hp).ne_iff]

end Reordered

/-! ### The matrix that comes out -/

/--
**A square matrix reordered by `p` holds at `(k, l)` what it held at `(p[k], p[l])`.**  Any
order of its rows is accepted, the shape and the number of stored entries stay, and row `k`
of the result lists in ascending order the columns `l` for which that entry is not zero.
-/
theorem permuteSymmetric_entries (hsquare : a.nrows = a.ncols) (hp : p.Perm (List.range a.nrows)) :
    ∃ b, a.permuteSymmetric p = .ok b ∧ b.nrows = a.nrows ∧ b.ncols = a.ncols ∧
      b.storedCount = a.storedCount ∧ ∀ k i : Nat, p[k]? = some i →
        (∀ l j : Nat, p[l]? = some j → ∃ x, a.get i j = .ok x ∧ b.get k l = .ok x) ∧
        ∃ row, b.indexedRow k = .ok row ∧ row.Pairwise (· < ·) ∧
          ∀ l, l ∈ row ↔ ∃ j x, p[l]? = some j ∧ a.get i j = .ok x ∧ Entry.isZero x = false := by
  obtain ⟨b, hb, hrearranged, hcount⟩ := permuteSymmetric_ok hsquare hp
  have hread := hrearranged.reordered hsquare hp
  refine ⟨b, hb, hread.nrows, hread.ncols, hcount, ?_⟩
  intro k i hk
  obtain ⟨hkn, rfl⟩ := (getElem?_eq_some_entry hp).mp hk
  refine ⟨?_, ?_⟩
  · intro l j hl
    obtain ⟨hln, rfl⟩ := (getElem?_eq_some_entry hp).mp hl
    have hcol : entry p l < a.ncols := by
      rw [← hsquare]
      exact entry_lt hp hln
    refine ⟨_, get_eq_lookup hcol _, ?_⟩
    rw [hread.get k l hkn (by omega), get_eq_lookup hcol]
  · obtain ⟨row, hrow, hascending, hmem⟩ := exists_indexedRow (a := b) (i := k)
      (by rw [hread.nrows]; exact hkn)
    refine ⟨row, hrow, hascending, ?_⟩
    intro l
    rw [hmem, hread.ncols, ← hsquare]
    constructor
    · intro h
      obtain ⟨hln, x, hx, hne⟩ := h
      rw [hread.get k l hkn (by omega)] at hx
      exact ⟨entry p l, x, (getElem?_eq_some_entry hp).mpr ⟨hln, rfl⟩, hx, hne⟩
    · intro h
      obtain ⟨j, x, hl, hx, hne⟩ := h
      obtain ⟨hln, rfl⟩ := (getElem?_eq_some_entry hp).mp hl
      rw [← hread.get k l hkn (by omega)] at hx
      exact ⟨hln, x, hx, hne⟩

/-- The first row goes to the end, and takes its zero along. -/
theorem permuteSymmetric_entries_zerosStored :
    zerosStored.nrows = zerosStored.ncols ∧ [1, 2, 0].Perm (List.range zerosStored.nrows) ∧
      ∃ b, zerosStored.permuteSymmetric [1, 2, 0] = .ok b ∧ b.storedCount = 4 ∧
        b.get 2 0 = .ok 2 ∧ ∃ row, b.indexedRow 2 = .ok row ∧ 0 ∈ row ∧ 1 ∉ row := by
  have hsquare : zerosStored.nrows = zerosStored.ncols := rfl
  have hp : [1, 2, 0].Perm (List.range zerosStored.nrows) := by decide
  obtain ⟨b, hb, -, -, hcount, hentries⟩ := permuteSymmetric_entries hsquare hp
  obtain ⟨hget, row, hrow, -, hmem⟩ := hentries 2 0 rfl
  obtain ⟨x, hx, hbx⟩ := hget 0 1 rfl
  obtain rfl : 2 = x := Except.ok.inj ((show zerosStored.get 0 1 = .ok 2 from rfl).symm.trans hx)
  refine ⟨hsquare, hp, b, hb, hcount, hbx, row, hrow, ?_, ?_⟩
  · exact (hmem 0).mpr ⟨1, 2, rfl, rfl, by decide⟩
  · intro hc
    obtain ⟨j, x, hj, hx, hne⟩ := (hmem 1).mp hc
    obtain rfl : 2 = j := Option.some.inj hj
    obtain rfl : 0 = x := Except.ok.inj ((show zerosStored.get 0 2 = .ok 0 from rfl).symm.trans hx)
    exact absurd hne (by decide)

end SparseMatrix

end EliminationOrder

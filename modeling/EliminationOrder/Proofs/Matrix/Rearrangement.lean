/-
Reordering a matrix again and again.

An ascending column is determined by its entries, so there is one matrix and no other that
stores what another one does in a given order (`Rearranged.unique`).  What reordering makes
is that matrix, and any way of coming to store the same entries in the same places ends at
it, whatever gathering and sorting went on in between.

So orders act on square matrices: the natural order changes nothing, and two orders in turn
do what the one after the other does at once.  A solver can reorder a matrix and take it back
with the inverse of the order, and has the matrix it began with, entry for entry as stored.
-/
import EliminationOrder.Proofs.Matrix.Reorder
import EliminationOrder.Proofs.Matrix.StoredArrays

namespace EliminationOrder.SparseMatrix

open Permutation

variable {α : Type} [Entry α] {a b c : SparseMatrix α} {p q : List Nat}

/-! ### Matrices with the same entries -/

theorem column_ascending (a : SparseMatrix α) (l : Nat) : Column.Ascending (a.column l) := by
  unfold column
  cases hl : a.columns[l]? with
  | none => exact List.Pairwise.nil
  | some col => exact a.ascending col (Array.mem_of_getElem? hl)

theorem eq_of_mem_iff (hrows : a.nrows = b.nrows) (hcols : a.ncols = b.ncols)
    (hmem : ∀ l e, e ∈ a.column l ↔ e ∈ b.column l) : a = b := by
  have hcolumn : a.column = b.column := funext fun l =>
    (a.column_ascending l).eq_of_mem_iff (b.column_ascending l) (hmem l)
  refine eq_of_columns hrows (Array.toList_inj.mp ?_)
  rw [columns_eq_map_range, columns_eq_map_range, hcols, hcolumn]

namespace Rearranged

/-- **Only one matrix stores the same entries in that order.** -/
theorem unique (h : Rearranged a p b) (h' : Rearranged a p c) : b = c := by
  refine eq_of_mem_iff (h.nrows.trans h'.nrows.symm) (h.ncols.trans h'.ncols.symm) ?_
  rintro l ⟨k, x⟩
  rw [h.mem_iff, h'.mem_iff]

/-- In its natural order, a matrix is as it is. -/
theorem natural (a : SparseMatrix α) (n : Nat) : Rearranged a (List.range n) a := by
  refine ⟨rfl, rfl, ?_⟩
  intro k l x
  rw [entry_range, entry_range]

/-- Two orders in turn make the order of the one after the other. -/
theorem trans (h : Rearranged a p b) (h' : Rearranged b q c) {n : Nat}
    (hp : p.Perm (List.range n)) (hq : q.Perm (List.range n)) : Rearranged a (after p q) c := by
  refine ⟨h'.nrows.trans h.nrows, h'.ncols.trans h.ncols, ?_⟩
  intro k l x
  rw [h'.mem_iff, h.mem_iff, entry_after hp hq, entry_after hp hq]

end Rearranged

/-! ### Orders in turn -/

/-- Reordering ends at the one matrix with the entries in that order. -/
theorem permuteSymmetric_eq_ok (hsquare : a.nrows = a.ncols) (hp : p.Perm (List.range a.nrows)) :
    a.permuteSymmetric p = .ok b ↔ Rearranged a p b := by
  obtain ⟨c, hc, hrearranged, -⟩ := permuteSymmetric_ok hsquare hp
  rw [hc, Except.ok.injEq]
  refine ⟨?_, hrearranged.unique⟩
  rintro rfl
  exact hrearranged

theorem permuteSymmetric_after (hsquare : a.nrows = a.ncols) (hp : p.Perm (List.range a.nrows))
    (hq : q.Perm (List.range a.nrows)) :
    ∃ b c, a.permuteSymmetric p = .ok b ∧ b.permuteSymmetric q = .ok c ∧
      a.permuteSymmetric (after p q) = .ok c := by
  obtain ⟨b, hb, hab, -⟩ := permuteSymmetric_ok hsquare hp
  have hsquare' : b.nrows = b.ncols := by rw [hab.nrows, hab.ncols, hsquare]
  have hq' : q.Perm (List.range b.nrows) := by rwa [hab.nrows]
  obtain ⟨c, hc, hbc, -⟩ := permuteSymmetric_ok hsquare' hq'
  refine ⟨b, c, hb, hc, ?_⟩
  rw [permuteSymmetric_eq_ok hsquare (after_perm hp hq)]
  exact hab.trans hbc hp hq

/--
**Orders act on square matrices as they are stored.**  The natural order gives the matrix
back, two orders in turn give what `p` after `q` gives, with `p[q[k]]` at position `k`, and
an order and then its inverse give the matrix back.  The equations are between matrices, and
a matrix is what its arrays are: the boundaries of its columns, their rows and their values,
zeros among them, with an index of the rows that follows from these.
-/
theorem permuteSymmetric_acts (hsquare : a.nrows = a.ncols) :
    a.permuteSymmetric (List.range a.nrows) = .ok a ∧
    (∀ p q, p.Perm (List.range a.nrows) → q.Perm (List.range a.nrows) →
      ∃ b c, a.permuteSymmetric p = .ok b ∧ b.permuteSymmetric q = .ok c ∧
        a.permuteSymmetric (after p q) = .ok c) ∧
    (∀ p, p.Perm (List.range a.nrows) →
      ∃ q b, inverse p = .ok q ∧ a.permuteSymmetric p = .ok b ∧ b.permuteSymmetric q = .ok a) ∧
    ∀ b : SparseMatrix α, a = b ↔
      (a.nrows = b.nrows ∧ a.offsets = b.offsets ∧ a.packed = b.packed) ∧ a.rows = b.rows := by
  have hnatural : a.permuteSymmetric (List.range a.nrows) = .ok a :=
    (permuteSymmetric_eq_ok hsquare (List.Perm.refl _)).mpr (Rearranged.natural a a.nrows)
  refine ⟨hnatural, fun p q hp hq => permuteSymmetric_after hsquare hp hq, ?_, ?_⟩
  · intro p hp
    obtain ⟨q, hinverse, hlen, hback⟩ := inverse_leadsBack hp
    have hq := hback.perm hp hlen
    obtain ⟨b, c, hb, hc, hafter⟩ := permuteSymmetric_after hsquare hp hq
    rw [hback.after_eq hp hlen, hnatural, Except.ok.injEq] at hafter
    rw [← hafter] at hc
    exact ⟨q, b, hinverse, hb, hc⟩
  · intro b
    rw [← eq_iff_arrays]
    refine ⟨?_, And.left⟩
    rintro rfl
    exact ⟨rfl, rfl⟩

/-- Moving every row on by one twice does at once what its inverse does, which takes it back. -/
theorem permuteSymmetric_acts_zerosStored :
    zerosStored.nrows = zerosStored.ncols ∧ [1, 2, 0].Perm (List.range zerosStored.nrows) ∧
      [2, 0, 1].Perm (List.range zerosStored.nrows) ∧ inverse [1, 2, 0] = .ok [2, 0, 1] ∧
      (∃ b c, zerosStored.permuteSymmetric [1, 2, 0] = .ok b ∧
        b.permuteSymmetric [1, 2, 0] = .ok c ∧ zerosStored.permuteSymmetric [2, 0, 1] = .ok c) ∧
      ∃ b, zerosStored.permuteSymmetric [1, 2, 0] = .ok b ∧
        b.permuteSymmetric [2, 0, 1] = .ok zerosStored ∧ b ≠ zerosStored := by
  have hsquare : zerosStored.nrows = zerosStored.ncols := rfl
  have hp : [1, 2, 0].Perm (List.range zerosStored.nrows) := by decide
  have hq : [2, 0, 1].Perm (List.range zerosStored.nrows) := by decide
  have hinverse : inverse [1, 2, 0] = .ok [2, 0, 1] := rfl
  obtain ⟨-, hafter, hback, -⟩ := permuteSymmetric_acts hsquare
  obtain ⟨q, b, hq', hb, hagain⟩ := hback [1, 2, 0] hp
  obtain rfl : [2, 0, 1] = q := Except.ok.inj (hinverse.symm.trans hq')
  refine ⟨hsquare, hp, hq, hinverse, hafter [1, 2, 0] [1, 2, 0] hp hp, b, hb, hagain, ?_⟩
  rintro rfl
  -- The entry 2 of the first row would stand in the last one.
  have hmoved : (zerosStored.permuteSymmetric [1, 2, 0]).toOption.map (·.rows)
      = some #[[], [], [0, 2]] := by decide +kernel
  rw [hb] at hmoved
  exact absurd hmoved (by decide)

end EliminationOrder.SparseMatrix

/-
Reading the arrays of a matrix by halving.

In the arrays of a matrix, a column is what stands between two boundaries, and its rows
ascend there.  `bisect` looks for a row by halving the part in which it can be.  Whatever it
finds is there (`bisect_sound`); and since rows ascend, the half that is given up cannot hold
the row, so a row that is there is found (`bisect_complete`).

A row is in a column at most once, so what is found is what looking through the column from
its beginning gives (`get_eq_search`).
-/
import EliminationOrder.Proofs.Matrix.StoredArrays

namespace EliminationOrder

variable {rows : Array Nat} {i first last k : Nat}

/-- Looks for `i` between two positions of an array that ascends there, and gives its position. -/
def bisect (rows : Array Nat) (i first last : Nat) : Option Nat :=
  if first < last then
    let middle := first + (last - first) / 2
    match rows[middle]? with
    | none => none
    | some r =>
      if r = i then some middle
      else if r < i then bisect rows i (middle + 1) last
      else bisect rows i first middle
  else
    none
termination_by last - first

/-- The array ascends between two positions. -/
def AscendsBetween (rows : Array Nat) (first last : Nat) : Prop :=
  ∀ k l r s, first ≤ k → k < l → l < last → rows[k]? = some r → rows[l]? = some s → r < s

/-- **What is found is there**, whether the array ascends or not. -/
theorem bisect_sound (h : bisect rows i first last = some k) :
    (first ≤ k ∧ k < last) ∧ rows[k]? = some i := by
  fun_induction bisect rows i first last with
  | case1 => cases h
  | case2 first last hlt middle hmiddle =>
      obtain rfl : middle = k := Option.some.inj h
      exact ⟨by omega, hmiddle⟩
  | case3 first last hlt middle r hmiddle hne hless ih =>
      obtain ⟨hbounds, hk⟩ := ih h
      exact ⟨by omega, hk⟩
  | case4 first last hlt middle r hmiddle hne hless ih =>
      obtain ⟨hbounds, hk⟩ := ih h
      exact ⟨by omega, hk⟩
  | case5 => cases h

/-- **What is there is found**, if the array ascends. -/
theorem bisect_complete (hasc : AscendsBetween rows first last) (hsize : last ≤ rows.size)
    (hfirst : first ≤ k) (hlast : k < last) (hk : rows[k]? = some i) :
    bisect rows i first last = some k := by
  fun_induction bisect rows i first last with
  | case1 first last hlt middle hmiddle =>
      have := Array.getElem?_eq_none_iff.mp hmiddle
      omega
  | case2 first last hlt middle hmiddle =>
      rcases Nat.lt_trichotomy middle k with hmk | hmk | hmk
      · exact absurd (hasc middle k i i (by omega) hmk hlast hmiddle hk) (Nat.lt_irrefl i)
      · rw [hmk]
      · exact absurd (hasc k middle i i hfirst hmk (by omega) hk hmiddle) (Nat.lt_irrefl i)
  | case3 first last hlt middle r hmiddle hne hless ih =>
      -- Up to the middle all rows are smaller.
      have hright : middle < k := by
        by_contra hc
        rcases Nat.lt_or_eq_of_le (Nat.not_lt.mp hc) with hmk | hmk
        · have := hasc k middle i r hfirst hmk (by omega) hk hmiddle
          omega
        · rw [hmk, hmiddle] at hk
          exact hne (Option.some.inj hk)
      exact ih (fun a b r s ha => hasc a b r s (by omega)) hsize hright hlast
  | case4 first last hlt middle r hmiddle hne hless ih =>
      -- From the middle on all rows are larger.
      have hleft : k < middle := by
        by_contra hc
        rcases Nat.lt_or_eq_of_le (Nat.not_lt.mp hc) with hmk | hmk
        · have := hasc middle k r i (by omega) hmk hlast hmiddle hk
          omega
        · rw [← hmk, hmiddle] at hk
          exact hne (Option.some.inj hk)
      exact ih (fun a b r s ha hab hb => hasc a b r s ha hab (by omega)) (by omega) hfirst hleft
  | case5 => omega

variable {α : Type}

/-! ### Columns in arrays -/

/-- Where a column stands in the arrays, its rows ascend. -/
theorem PackedColumns.ascendsBetween {packed : PackedColumns α} (h : packed.Holds first last)
    (hasc : (packed.entries first last).Ascending) : AscendsBetween packed.rowIds first last := by
  have hentry : ∀ t r, first + t < last → packed.rowIds[first + t]? = some r →
      ∃ x, (packed.entries first last)[t]? = some (r, x) := by
    intro t r ht hr
    have hlt : first + t < packed.values.size := Nat.lt_of_lt_of_le ht h.le_values
    exact ⟨_, (getElem?_entries h).mpr ⟨ht, hr, Array.getElem?_eq_getElem hlt⟩⟩
  intro k l r s hfirst hkl hlast hr hs
  obtain ⟨t, rfl⟩ := Nat.exists_eq_add_of_le hfirst
  obtain ⟨u, rfl⟩ := Nat.exists_eq_add_of_le (Nat.le_trans hfirst (Nat.le_of_lt hkl))
  obtain ⟨x, hx⟩ := hentry t r (by omega) hr
  obtain ⟨y, hy⟩ := hentry u s hlast hs
  obtain ⟨htlt, hx⟩ := List.getElem?_eq_some_iff.mp hx
  obtain ⟨hult, hy⟩ := List.getElem?_eq_some_iff.mp hy
  have hlt := List.pairwise_iff_getElem.mp hasc t u htlt hult (by omega)
  rwa [hx, hy] at hlt

namespace SparseMatrix

variable [Entry α] {a : SparseMatrix α} {j : Nat}

/-- Between its two boundaries, the arrays hold column `j`. -/
theorem exists_boundaries (hj : j < a.ncols) :
    ∃ first last, a.offsets[j]? = some first ∧ a.offsets[j + 1]? = some last ∧
      a.packed.Holds first last ∧ a.columns[j]? = some (a.packed.entries first last) := by
  have hpackable : PackedColumns.Packable a.nrows a.columns.toList.length a.offsets a.packed :=
    PackedColumns.packable_columnOffsets.mpr
      ⟨fun col hcol => a.inRange col (Array.mem_toList_iff.mp hcol),
        fun col hcol => (a.ascending col (Array.mem_toList_iff.mp hcol)).distinct⟩
  obtain ⟨first, last, hfirst, hlast, hholds, -⟩ :=
    hpackable.exists_boundaries (by rwa [Array.length_toList])
  refine ⟨first, last, hfirst, hlast, hholds, ?_⟩
  have hcolumn := PackedColumns.getElem?_entriesBetween a.packed hfirst hlast
  rwa [SparseMatrix.packed, SparseMatrix.offsets, PackedColumns.entriesBetween_columnOffsets,
    Array.getElem?_toList] at hcolumn

/-- The value that halving finds for row `i` in the arrays of column `j`. -/
def search (a : SparseMatrix α) (i j : Nat) : Option α := do
  let first ← a.offsets[j]?
  let last ← a.offsets[j + 1]?
  let k ← bisect a.packed.rowIds i first last
  a.packed.values[k]?

/-- **An entry is what halving finds in the arrays**, and zero if that finds nothing. -/
theorem get_eq_search (hj : j < a.ncols) (i : Nat) : a.get i j = .ok ((a.search i j).getD 0) := by
  obtain ⟨first, last, hfirst, hlast, hholds, hcolumn⟩ := exists_boundaries hj
  have hasc : (a.packed.entries first last).Ascending :=
    a.ascending _ (Array.mem_of_getElem? hcolumn)
  have hfound : a.search i j = List.lookup i (a.packed.entries first last) := by
    refine Option.ext fun x => ?_
    rw [Column.lookup_eq_some_iff hasc.distinct, PackedColumns.mem_entries hholds]
    simp only [search, hfirst, hlast, Option.bind_eq_bind, Option.bind_some, Option.bind_eq_some_iff]
    constructor
    · rintro ⟨k, hk, hx⟩
      obtain ⟨hbounds, hrow⟩ := bisect_sound hk
      exact ⟨k, hbounds, hrow, hx⟩
    · rintro ⟨k, hbounds, hrow, hx⟩
      exact ⟨k, bisect_complete (PackedColumns.ascendsBetween hholds hasc) hholds.le_rowIds
        hbounds.1 hbounds.2 hrow, hx⟩
  rw [hfound, SparseMatrix.get, hcolumn]

end SparseMatrix

end EliminationOrder

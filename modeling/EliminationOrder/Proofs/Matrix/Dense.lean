/-
Writing entries into a dense matrix.

Entry `(i, j)` lies at position `i + nrows * j`, and different positions of the matrix lie
apart as long as rows stay below `nrows` (`position_inj`), which is what writing checks.
`Overwritten d d' new` says what any number of writes has done: the shape is that of `d`,
and an entry is the new one where there is one and the old one elsewhere.  Later writes go
over earlier ones, so `Overwritten` composes by `<|>`.

Writing out a sparse matrix is such a sequence, column by column.  A column lists a row at
most once, so the entry that is looked up there is the one that was written last.
-/
import EliminationOrder.Matrix.Sparse
import Mathlib.Data.List.Basic

namespace EliminationOrder

namespace DenseMatrix

variable {α : Type} {d d₁ d₂ : DenseMatrix α} {i j k l : Nat}

/-! ### Positions -/

theorem position_lt (hi : i < d.nrows) (hj : j < d.ncols) : i + d.nrows * j < d.data.size := by
  rw [d.size_eq]
  calc i + d.nrows * j < d.nrows + d.nrows * j := by omega
    _ = d.nrows * (j + 1) := by rw [Nat.mul_add, Nat.mul_one, Nat.add_comm]
    _ ≤ d.nrows * d.ncols := Nat.mul_le_mul_left _ hj

/-- **Different rows and columns lie at different positions.** -/
theorem position_inj {nrows : Nat} (hi : i < nrows) (hk : k < nrows)
    (h : i + nrows * j = k + nrows * l) : i = k ∧ j = l := by
  have hrow : i = k := by
    have := congrArg (· % nrows) h
    simpa [Nat.add_mul_mod_self_left, Nat.mod_eq_of_lt hi, Nat.mod_eq_of_lt hk] using this
  subst hrow
  have hpos : 0 < nrows := by omega
  exact ⟨rfl, Nat.eq_of_mul_eq_mul_left hpos (by omega)⟩

theorem get_zeros [Entry α] {nrows ncols : Nat} (hi : i < nrows) (hj : j < ncols) :
    (zeros nrows ncols : DenseMatrix α).get i j = .ok 0 := by
  have hlt : i + nrows * j < nrows * ncols := by
    simpa [zeros] using position_lt (d := (zeros nrows ncols : DenseMatrix α)) hi hj
  simp [get, zeros, hlt]

/-! ### Writes -/

/-- `d'` is `d` with the new entries where there are any. -/
structure Overwritten (d d' : DenseMatrix α) (new : Nat → Nat → Option α) : Prop where
  nrows : d'.nrows = d.nrows
  ncols : d'.ncols = d.ncols
  get : ∀ i j, i < d.nrows → j < d.ncols → d'.get i j = (new i j).elim (d.get i j) .ok

theorem Overwritten.refl (d : DenseMatrix α) : Overwritten d d fun _ _ => none :=
  ⟨rfl, rfl, fun _ _ _ _ => rfl⟩

/-- **Later writes go over earlier ones.** -/
theorem Overwritten.trans {new₁ new₂ : Nat → Nat → Option α} (h₁ : Overwritten d d₁ new₁)
    (h₂ : Overwritten d₁ d₂ new₂) : Overwritten d d₂ fun i j => new₂ i j <|> new₁ i j where
  nrows := h₂.nrows.trans h₁.nrows
  ncols := h₂.ncols.trans h₁.ncols
  get i j hi hj := by
    rw [h₂.get i j (by rw [h₁.nrows]; exact hi) (by rw [h₁.ncols]; exact hj), h₁.get i j hi hj]
    cases new₂ i j <;> rfl

theorem Overwritten.congr {new new' : Nat → Nat → Option α} (h : Overwritten d d₁ new)
    (hnew : ∀ i j, new' i j = new i j) : Overwritten d d₁ new' :=
  ⟨h.nrows, h.ncols, fun i j hi hj => by rw [hnew]; exact h.get i j hi hj⟩

/-- A write inside the matrix answers, and changes its own entry and no other. -/
theorem set_ok (hi : i < d.nrows) (hj : j < d.ncols) (x : α) :
    ∃ d', d.set i j x = .ok d' ∧
      Overwritten d d' fun k l => if k = i ∧ l = j then some x else none := by
  refine ⟨_, if_pos ⟨hi, hj⟩, rfl, rfl, ?_⟩
  intro k l hk hl
  by_cases hkl : k = i ∧ l = j
  · obtain ⟨rfl, rfl⟩ := hkl
    simp [get, position_lt hi hj]
  · have hne : i + d.nrows * j ≠ k + d.nrows * l := by
      intro hc
      obtain ⟨rfl, rfl⟩ := position_inj hi hk hc
      exact hkl ⟨rfl, rfl⟩
    rw [if_neg hkl]
    simp [get, Array.getElem?_setIfInBounds_ne hne]

end DenseMatrix

/-! ### Writing out columns -/

open DenseMatrix

variable {α : Type}

/-- A row before all those of a column is not listed in it. -/
theorem Column.lookup_eq_none {i : Nat} {col : Column α} (h : ∀ e ∈ col, i < e.1) :
    List.lookup i col = none := by
  refine List.lookup_eq_none_iff.mpr fun e he => ?_
  have hne : i ≠ e.1 := Nat.ne_of_lt (h e he)
  simpa using hne

namespace SparseMatrix

/-- Writing out a column sets the entries that it lists. -/
theorem writeColumn_ok (j : Nat) (col : Column α) :
    ∀ {d : DenseMatrix α}, j < d.ncols → col.InRange d.nrows → col.Ascending →
      ∃ d', writeColumn j col d = .ok d' ∧
        Overwritten d d' fun k l => if l = j then List.lookup k col else none := by
  induction col with
  | nil =>
      intro d _ _ _
      exact ⟨d, rfl, (Overwritten.refl d).congr fun k l => by simp⟩
  | cons e col ih =>
      intro d hj hrange hasc
      obtain ⟨r, x⟩ := e
      obtain ⟨hfirst, hasc'⟩ := List.pairwise_cons.mp hasc
      obtain ⟨d₁, hset, h₁⟩ := set_ok (hrange (r, x) (by simp)) hj x
      obtain ⟨d₂, hrest, h₂⟩ := ih (d := d₁) (by rw [h₁.ncols]; exact hj)
        (fun e he => by rw [h₁.nrows]; exact hrange e (by simp [he])) hasc'
      refine ⟨d₂, by rw [writeColumn, hset]; exact hrest, (h₁.trans h₂).congr fun k l => ?_⟩
      by_cases hl : l = j
      · by_cases hk : k = r
        · -- The rest of the column does not list the row again.
          subst hk
          simp [hl, List.lookup_cons_self, Column.lookup_eq_none hfirst]
        · have hne : (k == r) = false := by simpa using hk
          simp [hl, hk, List.lookup_cons, hne]
      · simp [hl]

theorem writeColumns_ok (cols : List (Column α)) :
    ∀ (j : Nat) {d : DenseMatrix α}, j + cols.length ≤ d.ncols →
      (∀ col ∈ cols, col.InRange d.nrows) → (∀ col ∈ cols, col.Ascending) →
      ∃ d', writeColumns j cols d = .ok d' ∧ Overwritten d d' fun k l =>
        if j ≤ l then List.lookup k (cols[l - j]?.getD []) else none := by
  induction cols with
  | nil =>
      intro j d _ _ _
      exact ⟨d, rfl, (Overwritten.refl d).congr fun k l => by simp⟩
  | cons col cols ih =>
      intro j d hlen hrange hasc
      rw [List.length_cons] at hlen
      obtain ⟨d₁, hcol, h₁⟩ := writeColumn_ok j col (d := d) (by omega) (hrange col (by simp))
        (hasc col (by simp))
      obtain ⟨d₂, hrest, h₂⟩ := ih (j + 1) (d := d₁) (by rw [h₁.ncols]; omega)
        (fun c hc => by rw [h₁.nrows]; exact hrange c (by simp [hc]))
        (fun c hc => hasc c (by simp [hc]))
      refine ⟨d₂, by rw [writeColumns, hcol]; exact hrest, (h₁.trans h₂).congr fun k l => ?_⟩
      rcases Nat.lt_trichotomy l j with hlt | rfl | hgt
      · simp [Nat.not_le.mpr hlt, Nat.ne_of_lt hlt, show ¬ j + 1 ≤ l by omega]
      · simp [show ¬ l + 1 ≤ l by omega]
      · rw [show l - j = (l - (j + 1)) + 1 by omega, List.getElem?_cons_succ]
        simp [show j + 1 ≤ l by omega, Nat.ne_of_gt hgt, Nat.le_of_lt hgt]

/-- **A sparse matrix can be written out in full, with the same entries.** -/
theorem toDense_ok [Entry α] (a : SparseMatrix α) :
    ∃ d, a.toDense = .ok d ∧ d.nrows = a.nrows ∧ d.ncols = a.ncols ∧
      ∀ i j, i < a.nrows → j < a.ncols → d.get i j = a.get i j := by
  obtain ⟨d, hok, h⟩ := writeColumns_ok a.columns.toList 0 (d := zeros a.nrows a.ncols)
    (by simp [ncols, zeros]) (fun col hcol => a.inRange col (by simpa using hcol))
    (fun col hcol => a.ascending col (by simpa using hcol))
  refine ⟨d, hok, h.nrows, h.ncols, ?_⟩
  intro i j hi hj
  rw [h.get i j hi hj, get_zeros hi hj]
  have hlt : j < a.columns.size := hj
  simp only [Nat.zero_le, if_true, Nat.sub_zero, SparseMatrix.get,
    Array.getElem?_toList, Array.getElem?_eq_getElem hlt, Option.getD_some]
  cases List.lookup i a.columns[j] <;> rfl

end SparseMatrix

end EliminationOrder

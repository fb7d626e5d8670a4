/-
The pattern of a matrix, whatever stores it.

`Nonzero` says what the pattern is, through `get` alone: the positions whose entry is
not zero.  Both storages list the pattern of a row, a dense matrix by reading the row and
a sparse one from an index that was built column by column when the matrix was.
`rowPattern_eq` says that both give the nonzero columns, all of them and in ascending
order.

The index is a fold over the columns, the last one first, and a column enters itself at
the front of the rows it touches.  Since a column lists a row at most once, it enters
itself at most once in each, and `holds` is the test that decides it.
-/
import EliminationOrder.Matrix.Stored
import EliminationOrder.Proofs.Matrix.Dense
import Mathlib.Data.List.Basic

namespace EliminationOrder

variable {α : Type} [Entry α]

/-! ### The row index of a sparse matrix -/

/-- Whether a column has an entry in row `i` that is not zero. -/
def Column.holds (col : Column α) (i : Nat) : Bool :=
  !Entry.isZero ((List.lookup i col).getD 0)

@[simp] theorem Column.holds_nil (i : Nat) : Column.holds ([] : Column α) i = false := by
  have : ((0 : α) == 0) = true := Entry.zero_beq_zero
  simp [Column.holds, Entry.isZero, this]

theorem Column.holds_cons_self (i : Nat) (x : α) (col : Column α) :
    Column.holds ((i, x) :: col) i = !Entry.isZero x := by
  simp [Column.holds, List.lookup_cons_self]

theorem Column.holds_cons_ne {i r : Nat} (h : i ≠ r) (x : α) (col : Column α) :
    Column.holds ((r, x) :: col) i = Column.holds col i := by
  have hne : (i == r) = false := by simpa using h
  simp [Column.holds, List.lookup_cons, hne]

/-- A row before all those of a column is not in it. -/
theorem Column.holds_eq_false {i : Nat} {col : Column α} (h : ∀ e ∈ col, i < e.1) :
    Column.holds col i = false := by
  induction col with
  | nil => simp
  | cons e col ih =>
      obtain ⟨r, x⟩ := e
      have hlt : i < r := h (r, x) (by simp)
      rw [Column.holds_cons_ne (Nat.ne_of_lt hlt)]
      exact ih fun e he => h e (by simp [he])

/-- A column enters itself in front of the rows that it is not zero in. -/
theorem indexColumn_getElem? (j i : Nat) {col : Column α} (hasc : col.Ascending) :
    ∀ (rows : Array (List Nat)), (indexColumn j col rows)[i]?
      = rows[i]?.map fun row => if col.holds i then j :: row else row := by
  induction col with
  | nil =>
      intro rows
      simp [indexColumn]
  | cons e col ih =>
      intro rows
      obtain ⟨r, x⟩ := e
      obtain ⟨hfirst, hasc'⟩ := List.pairwise_cons.mp hasc
      rw [indexColumn_cons, ih hasc']
      by_cases hir : i = r
      · subst hir
        rw [Column.holds_cons_self, Column.holds_eq_false hfirst]
        cases hx : Entry.isZero x with
        | true => simp
        | false => simp [Array.getElem?_modify, Function.comp_def]
      · rw [Column.holds_cons_ne hir]
        have hri : r ≠ i := fun hc => hir hc.symm
        cases hx : Entry.isZero x with
        | true => simp
        | false => simp [Array.getElem?_modify, hri]

theorem indexColumns_getElem? {nrows i : Nat} (hi : i < nrows) (cols : List (Column α)) :
    ∀ (j : Nat), (∀ col ∈ cols, col.Ascending) →
      (indexColumns nrows j cols)[i]?
        = some ((List.range' j cols.length).filter fun c =>
            Column.holds (cols[c - j]?.getD []) i) := by
  induction cols with
  | nil =>
      intro j _
      simp [indexColumns, hi]
  | cons col cols ih =>
      intro j hasc
      -- Past the first column, column `c` of the list is column `c - (j + 1)` of its tail.
      have htail : ((List.range' (j + 1) cols.length).filter fun c =>
            Column.holds (((col :: cols)[c - j]?).getD []) i)
          = (List.range' (j + 1) cols.length).filter fun c =>
            Column.holds (cols[c - (j + 1)]?.getD []) i := by
        refine List.filter_congr fun c hc => ?_
        have hle : j + 1 ≤ c := (List.mem_range'_1.mp hc).1
        rw [show c - j = (c - (j + 1)) + 1 by omega, List.getElem?_cons_succ]
      rw [indexColumns, indexColumn_getElem? j i (hasc col (by simp)),
        ih (j + 1) (fun col hcol => hasc col (by simp [hcol])), List.length_cons, List.range'_succ,
        List.filter_cons, htail]
      simp

/-- **The index of a row lists the columns that are not zero there, in ascending order.** -/
theorem rowIndex_getElem? {nrows i : Nat} (hi : i < nrows) {columns : Array (Column α)}
    (hasc : ∀ col ∈ columns, col.Ascending) :
    (rowIndex nrows columns)[i]?
      = some ((List.range columns.size).filter fun c =>
          Column.holds (columns[c]?.getD []) i) := by
  rw [rowIndex, indexColumns_getElem? hi _ 0 (fun col hcol => hasc col (by simpa using hcol)),
    List.range_eq_range']
  simp

/-! ### The pattern through `get` -/

namespace StoredMatrix

variable {a : StoredMatrix α} {i j : Nat}

/-- The matrix has a position `(i, j)`, and the entry there is not zero. -/
def Nonzero (a : StoredMatrix α) (i j : Nat) : Prop :=
  i < a.nrows ∧ j < a.ncols ∧ ∃ x, a.get i j = .ok x ∧ Entry.isZero x = false

instance (a : StoredMatrix α) (i j : Nat) : Decidable (a.Nonzero i j) :=
  decidable_of_iff
    (i < a.nrows ∧ j < a.ncols ∧
      (match a.get i j with | .ok x => !Entry.isZero x | .error _ => false) = true)
    (by unfold Nonzero; cases a.get i j <;> simp)

theorem nonzero_iff {x : α} (hi : i < a.nrows) (hj : j < a.ncols) (hget : a.get i j = .ok x) :
    a.Nonzero i j ↔ Entry.isZero x = false := by
  constructor
  · intro h
    obtain ⟨-, -, y, hy, hzero⟩ := h
    rw [hget, Except.ok.injEq] at hy
    rw [hy]
    exact hzero
  · intro hzero
    exact ⟨hi, hj, x, hget, hzero⟩

theorem sparse_get {s : SparseMatrix α} (hj : j < s.ncols) (i : Nat) :
    (sparse s).get i j = .ok ((List.lookup i (s.columns[j]?.getD [])).getD 0) := by
  have hj' : j < s.columns.size := hj
  simp [StoredMatrix.get, SparseMatrix.get, hj']

theorem dense_get {d : DenseMatrix α} (hi : i < d.nrows) (hj : j < d.ncols) :
    ∃ x, (dense d).get i j = .ok x := by
  have hlt := DenseMatrix.position_lt hi hj
  exact ⟨d.data[i + d.nrows * j], by simp [StoredMatrix.get, DenseMatrix.get, hlt]⟩

/-- Every position of a matrix can be read. -/
theorem get_ok (hi : i < a.nrows) (hj : j < a.ncols) : ∃ x, a.get i j = .ok x := by
  cases a with
  | sparse s => exact ⟨_, sparse_get hj i⟩
  | dense d => exact dense_get hi hj

/-- The columns that are not zero in row `i`, in ascending order. -/
def nonzeroColumns (a : StoredMatrix α) (i : Nat) : List Nat :=
  (List.range a.ncols).filter fun j => a.Nonzero i j

theorem mem_nonzeroColumns : j ∈ a.nonzeroColumns i ↔ a.Nonzero i j := by
  simp only [nonzeroColumns, List.mem_filter, List.mem_range, decide_eq_true_eq]
  exact ⟨fun h => h.2, fun h => ⟨h.2.1, h⟩⟩

theorem nodup_nonzeroColumns (a : StoredMatrix α) (i : Nat) : (a.nonzeroColumns i).Nodup :=
  List.nodup_range.filter _

theorem scanFrom_eq {d : DenseMatrix α} (hi : i < d.nrows) (count : Nat) :
    ∀ (j : Nat), j + count ≤ d.ncols →
      d.scanFrom i j count = .ok ((List.range' j count).filter fun c => (dense d).Nonzero i c) := by
  induction count with
  | zero =>
      intro j _
      rfl
  | succ count ih =>
      intro j hj
      have hlt : j < d.ncols := by omega
      obtain ⟨x, hx⟩ := dense_get hi hlt
      have hget : d.get i j = .ok x := hx
      have hpj : decide ((dense d).Nonzero i j) = !Entry.isZero x := by
        rw [Bool.eq_iff_iff, decide_eq_true_eq, nonzero_iff (a := dense d) hi hlt hx,
          Bool.not_eq_true']
      rw [DenseMatrix.scanFrom, hget, Outcome.ok_bind, ih (j + 1) (by omega), Outcome.ok_bind,
        List.range'_succ, List.filter_cons, hpj]
      cases Entry.isZero x <;> simp

/-- **Either storage lists the columns that are not zero in a row, in ascending order.** -/
theorem rowPattern_eq (hi : i < a.nrows) : a.rowPattern i = .ok (a.nonzeroColumns i) := by
  cases a with
  | sparse s =>
      have hrow : s.rows[i]? = some ((List.range s.columns.size).filter fun c =>
          Column.holds (s.columns[c]?.getD []) i) := by
        rw [s.rows_eq]
        exact rowIndex_getElem? hi s.ascending
      have heq : ((List.range s.columns.size).filter fun c =>
          Column.holds (s.columns[c]?.getD []) i) = (sparse s).nonzeroColumns i := by
        refine List.filter_congr fun c hc => ?_
        have hcs : c < s.ncols := List.mem_range.mp hc
        rw [Bool.eq_iff_iff, decide_eq_true_eq, nonzero_iff hi hcs (sparse_get hcs i),
          Column.holds, Bool.not_eq_true']
      simp only [rowPattern, SparseMatrix.indexedRow, hrow, heq]
  | dense d =>
      rw [rowPattern, DenseMatrix.scanRow, scanFrom_eq hi d.ncols 0 (by omega),
        ← List.range_eq_range']
      rfl

theorem rowPatternsFrom_eq (a : StoredMatrix α) (count : Nat) :
    ∀ (i : Nat), i + count ≤ a.nrows →
      a.rowPatternsFrom i count = .ok ((List.range' i count).map a.nonzeroColumns) := by
  induction count with
  | zero =>
      intro i _
      rfl
  | succ count ih =>
      intro i hi
      rw [rowPatternsFrom, rowPattern_eq (by omega), Outcome.ok_bind, ih (i + 1) (by omega),
        List.range'_succ]
      rfl

theorem rowPatterns_eq (a : StoredMatrix α) :
    a.rowPatterns = .ok ((List.range a.nrows).map a.nonzeroColumns) := by
  rw [rowPatterns, rowPatternsFrom_eq a a.nrows 0 (by omega), List.range_eq_range']

end StoredMatrix

/-! ### Pairs -/

theorem mem_patternPairs {x y : Nat} (rows : List (List Nat)) :
    ∀ (i : Nat), (x, y) ∈ patternPairs i rows ↔ i ≤ x ∧ y ∈ rows[x - i]?.getD [] := by
  induction rows with
  | nil =>
      intro i
      simp [patternPairs]
  | cons row rows ih =>
      intro i
      have hfirst : (x, y) ∈ row.map (i, ·) ↔ x = i ∧ y ∈ row := by
        simp only [List.mem_map, Prod.mk.injEq]
        constructor
        · intro h
          obtain ⟨z, hz, rfl, rfl⟩ := h
          exact ⟨rfl, hz⟩
        · intro h
          obtain ⟨rfl, hy⟩ := h
          exact ⟨y, hy, rfl, rfl⟩
      rw [patternPairs, List.mem_append, hfirst, ih (i + 1)]
      by_cases hx : x = i
      · subst hx
        have hnot : ¬ x + 1 ≤ x := by omega
        simp [hnot]
      · by_cases hle : i + 1 ≤ x
        · rw [show x - i = (x - (i + 1)) + 1 by omega, List.getElem?_cons_succ]
          simp [hx, hle, show i ≤ x by omega]
        · simp [hx, hle, show ¬ i ≤ x by omega]

end EliminationOrder

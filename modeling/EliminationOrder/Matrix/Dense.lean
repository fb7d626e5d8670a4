/-
Matrices that store every entry.

The entries lie column after column in one array, so entry `(i, j)` is at position
`i + nrows * j`. Reading checks only that the position exists: a row past the last one
reads on into the next column. Writing checks the row and the column.
-/
import EliminationOrder.Entry
import EliminationOrder.Failure

namespace EliminationOrder

/-- A matrix with all its entries, column after column. -/
structure DenseMatrix (α : Type) where
  nrows : Nat
  ncols : Nat
  data : Array α
  /-- There is one entry for each position. -/
  size_eq : data.size = nrows * ncols

namespace DenseMatrix

variable {α : Type}

/-- The matrix with the given columns, joined to one list. -/
def ofList (nrows ncols : Nat) (entries : List α) : Outcome (DenseMatrix α) :=
  if h : entries.toArray.size = nrows * ncols then
    .ok ⟨nrows, ncols, entries.toArray, h⟩
  else
    .error (.fault (.sizeMismatch entries.length (nrows * ncols)))

/-- The matrix of zeros. -/
def zeros [Entry α] (nrows ncols : Nat) : DenseMatrix α :=
  ⟨nrows, ncols, Array.replicate (nrows * ncols) 0, by simp⟩

/-- The entry at position `i + nrows * j`. -/
def get (a : DenseMatrix α) (i j : Nat) : Outcome α :=
  match a.data[i + a.nrows * j]? with
  | some x => .ok x
  | none => .error (.outOfRange (i + a.nrows * j) a.data.size)

/-- Writes `x` at row `i` and column `j`. -/
def set (a : DenseMatrix α) (i j : Nat) (x : α) : Outcome (DenseMatrix α) :=
  if i < a.nrows ∧ j < a.ncols then
    .ok { a with
      data := a.data.setIfInBounds (i + a.nrows * j) x
      size_eq := by rw [Array.size_setIfInBounds]; exact a.size_eq }
  else
    .error (.fault (.noPosition i j a.nrows a.ncols))

/-- Whether two matrices have the same shape and equal entries. -/
def beq [BEq α] (a b : DenseMatrix α) : Bool :=
  a.nrows == b.nrows && a.ncols == b.ncols && a.data == b.data

/-- Of the `count` columns from `j` on, those in which row `i` is not zero. -/
def scanFrom [Entry α] (a : DenseMatrix α) (i j : Nat) : Nat → Outcome (List Nat)
  | 0 => .ok []
  | count + 1 => do
    let x ← a.get i j
    let rest ← a.scanFrom i (j + 1) count
    return if Entry.isZero x then rest else j :: rest

/-- The columns in which row `i` is not zero, in ascending order, found by reading the row. -/
def scanRow [Entry α] (a : DenseMatrix α) (i : Nat) : Outcome (List Nat) :=
  a.scanFrom i 0 a.ncols

end DenseMatrix

end EliminationOrder

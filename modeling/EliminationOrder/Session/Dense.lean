/-
Requests to a dense matrix that is written to, and their answers.
-/
import EliminationOrder.Ordering.Appraisal
import EliminationOrder.Script

namespace EliminationOrder.DenseMatrix

/-- What can be asked of a dense matrix. -/
inductive Request (α : Type)
  | set (i j : Nat) (x : α)
  | get (i j : Nat)
  /-- The patterns of all rows. -/
  | patterns
  /-- All entries by rows. -/
  | entries
  /-- Whether all entries are zero. -/
  | equalsZeros
  /-- An ordering of the rows, with optional parameters of the method. -/
  | order (kind : MethodKind) (decay : Option Float) (maxHops : Option Nat)

/-- What a dense matrix answers. -/
inductive Answer (α : Type)
  | done
  | entry (x : α)
  | patterns (rows : List (List Nat))
  | entries (rows : List (List α))
  | flag (holds : Bool)
  | appraisal (result : Appraisal)

variable {α : Type} [Entry α]

/-- Carries out one request. -/
def step (a : DenseMatrix α) : Request α → Outcome (Answer α × DenseMatrix α)
  | .set i j x => do
    let a ← a.set i j x
    return (.done, a)
  | .get i j => do
    let x ← a.get i j
    return (.entry x, a)
  | .patterns => do
    let rows ← (StoredMatrix.dense a).rowPatterns
    return (.patterns rows, a)
  | .entries => do
    let rows ← (StoredMatrix.dense a).entriesByRow
    return (.entries rows, a)
  | .equalsZeros => .ok (.flag (a.beq (zeros a.nrows a.ncols)), a)
  | .order kind decay maxHops => do
    let method ← Method.ofKind kind decay maxHops
    let result ← method.appraise (.dense a)
    return (.appraisal result, a)

/-- The answers of a dense matrix to a list of requests. -/
def run (a : DenseMatrix α) (requests : List (Request α)) : List (Outcome (Answer α)) :=
  Script.answers step a requests

end EliminationOrder.DenseMatrix

/-
An ordering together with what is asked about it: its inverse and its fill.
-/
import EliminationOrder.FillIn
import EliminationOrder.Ordering.Method

namespace EliminationOrder

/-- An order of the rows of a matrix, and what it is worth. -/
structure Appraisal where
  order : List Nat
  inverse : List Nat
  /-- The fill of the order; it is refused where the matrix is not square. -/
  fill : Outcome Nat

/-- A hop ordering from optional parameters: no decay means the standard one. -/
def HopDegree.ofParameters (decay : Option Float) (maxHops : Option Nat) : Outcome HopDegree := do
  let k ← match decay with
    | some decay => HopDegree.ofDecay decay
    | none => .ok HopDegree.standard
  return match maxHops with
    | some hops => k.withMaxHops hops
    | none => k

/-- The method of the given kind; only the hop ordering takes parameters. -/
def Method.ofKind (kind : MethodKind) (decay : Option Float) (maxHops : Option Nat) : Outcome Method :=
  match kind with
  | .exactMinimumDegree => .ok .exactMinimumDegree
  | .greedyMinimumFill => .ok .greedyMinimumFill
  | .approximateFill => .ok .approximateFill
  | .greedyRow => .ok .greedyRow
  | .hopDegree => .hopDegree <$> HopDegree.ofParameters decay maxHops

/-- Orders a matrix by a method and appraises the result. -/
def Method.appraise {α : Type} [Entry α] (method : Method) (a : StoredMatrix α) : Outcome Appraisal := do
  let order ← method.order a
  let inverse ← Permutation.inverse order
  return { order, inverse, fill := fillIn a order }

end EliminationOrder

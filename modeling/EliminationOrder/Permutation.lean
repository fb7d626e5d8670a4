/-
Orders of the numbers below a bound, as lists.

An order of `n` things is a list that holds every number below `n` exactly once. Its
inverse gives each thing its position, so it takes a solution of the reordered system
back to the numbering of the things.
-/
import EliminationOrder.Failure

namespace EliminationOrder.Permutation

/-- Scans a list against the numbers seen so far: each is in range and new. -/
def allNew (n : Nat) (seen : Array Bool) : List Nat → Bool
  | [] => true
  | i :: is => i < n && !(seen[i]?.getD false) && allNew n (seen.setIfInBounds i true) is

/-- Whether `p` holds every number below `n` exactly once, and nothing else. -/
def isPermutation (p : List Nat) (n : Nat) : Bool :=
  p.length == n && allNew n (Array.replicate n false) p

/-- Writes each entry's position into `q`, counting positions from `k`. -/
def recordPositions (q : Array Nat) (k : Nat) : List Nat → Outcome (Array Nat)
  | [] => .ok q
  | v :: vs =>
    if v < q.size then recordPositions (q.setIfInBounds v k) (k + 1) vs
    else .error (.outOfRange v q.size)

/--
The list that holds at `v` the last position of `v` in `p`, and zero where `v` does not
occur. Of a permutation it is the inverse.
-/
def inverse (p : List Nat) : Outcome (List Nat) := do
  let q ← recordPositions (Array.replicate p.length 0) 0 p
  return q.toList

end EliminationOrder.Permutation

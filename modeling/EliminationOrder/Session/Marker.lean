/-
Requests to a marker, and their answers.
-/
import EliminationOrder.Marker
import EliminationOrder.Script

namespace EliminationOrder.Marker

/-- What can be asked of a marker. -/
inductive Request
  | advance
  | mark (i : Nat)
  | isMarked (i : Nat)
  | dedup (is : List Nat)

/-- What a marker answers. -/
inductive Answer
  | generation (n : Nat)
  | done
  | flag (marked : Bool)
  | list (is : List Nat)

/-- Carries out one request. -/
def step (m : Marker) : Request → Outcome (Answer × Marker)
  | .advance =>
    let m := m.advance
    .ok (.generation m.generation, m)
  | .mark i => do
    let m ← m.mark i
    return (.done, m)
  | .isMarked i => do
    let marked ← m.isMarked i
    return (.flag marked, m)
  | .dedup is => do
    let (is, m) ← m.dedup is
    return (.list is, m)

/-- The answers of a marker to a list of requests. -/
def run (m : Marker) (requests : List Request) : List (Outcome Answer) :=
  Script.answers step m requests

end EliminationOrder.Marker

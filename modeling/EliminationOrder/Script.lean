/-
Lists of requests to an object that changes.

A request either gives an answer and the object's next state, or ends without an answer
and leaves the object as it was. A list of requests goes on past those that ended so.
-/
import EliminationOrder.Failure

namespace EliminationOrder.Script

variable {σ ι β : Type}

/-- The state after a request that answered, or the old one if it did not. -/
def settle (s : σ) : Outcome (β × σ) → Outcome β × σ
  | .ok (answer, s') => (.ok answer, s')
  | .error e => (.error e, s)

/-- For each request of a list, what it gave and the state after it. -/
def trace (step : σ → ι → Outcome (β × σ)) : σ → List ι → List (Outcome β × σ)
  | _, [] => []
  | s, r :: rs =>
    let settled := settle s (step s r)
    settled :: trace step settled.2 rs

/-- For each request of a list, what it gave. -/
def answers (step : σ → ι → Outcome (β × σ)) (s : σ) (rs : List ι) : List (Outcome β) :=
  (trace step s rs).map Prod.fst

end EliminationOrder.Script

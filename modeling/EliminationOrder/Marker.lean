/-
A set of node numbers that is emptied in constant time.

Every number below the size carries the stamp it was last given, and a number is in
the set when its stamp is the current generation. Emptying the set is starting a new
generation: old stamps are left where they are and no longer count. A fresh marker is
in generation zero with every stamp zero, so at first everything is in the set.

Stamps are words of 32 bits. When the last generation is over, all stamps are cleared
and counting starts again at one, so that no old stamp meets a generation of its number.
-/
import EliminationOrder.Failure

namespace EliminationOrder

/-- A set of numbers below `stamps.size`, held as stamps of generations. -/
structure Marker where
  stamps : Array Nat
  generation : Nat

namespace Marker

/-- The marker for numbers below `n`, with all of them marked. -/
def fresh (n : Nat) : Marker :=
  ⟨Array.replicate n 0, 0⟩

/-- The last generation before the stamps are cleared. -/
def lastGeneration : Nat :=
  4294967295

/-- Starts a new generation, in which nothing is marked yet. -/
def advance (m : Marker) : Marker :=
  if m.generation = lastGeneration then
    { stamps := Array.replicate m.stamps.size 0, generation := 1 }
  else
    { m with generation := m.generation + 1 }

/-- Marks `i`. -/
def mark (m : Marker) (i : Nat) : Outcome Marker :=
  if i < m.stamps.size then
    .ok { m with stamps := m.stamps.setIfInBounds i m.generation }
  else
    .error (.outOfRange i m.stamps.size)

/-- Whether `i` is marked. -/
def isMarked (m : Marker) (i : Nat) : Outcome Bool :=
  match m.stamps[i]? with
  | some stamp => .ok (stamp == m.generation)
  | none => .error (.outOfRange i m.stamps.size)

/-! ### Whole lists

The three ways in which a search or a merge uses the marker: mark a list, count what
is missing from it, and take over what is missing from it. Dropping repetitions from a
list is a fourth one, carried out in the list itself.
-/

/-- Marks every entry of a list. -/
def markAll (m : Marker) : List Nat → Outcome Marker
  | [] => .ok m
  | i :: is => do
    let m ← m.mark i
    m.markAll is

/-- The entries of a list that are not marked. -/
def unmarked (m : Marker) : List Nat → Outcome (List Nat)
  | [] => .ok []
  | i :: is => do
    let known ← m.isMarked i
    let rest ← m.unmarked is
    return if known then rest else i :: rest

/--
The entries of a list that are not marked, each at its first occurrence, and the marker
with all of them marked.
-/
def claim (m : Marker) : List Nat → Outcome (List Nat × Marker)
  | [] => .ok ([], m)
  | i :: is => do
    if ← m.isMarked i then
      m.claim is
    else
      let m ← m.mark i
      let (new, m) ← m.claim is
      return (i :: new, m)

/--
Goes through `count` entries from position `k` on, and moves those that are not marked to the
front, where `kept` entries stand already. Gives the front, and the marker with all of them
marked. What is read has not been written yet, since the front never gets past `k`.
-/
def compact (m : Marker) (is : Array Nat) (kept k : Nat) : Nat → Outcome (List Nat × Marker)
  | 0 => .ok (is.toList.take kept, m)
  | count + 1 =>
    match is[k]? with
    | none => .error (.outOfRange k is.size)
    | some i => do
      if ← m.isMarked i then
        m.compact is kept (k + 1) count
      else
        let m ← m.mark i
        m.compact (is.setIfInBounds kept i) (kept + 1) (k + 1) count

/-- Leaves the first occurrences in a list, in place; afterwards exactly its entries are marked. -/
def dedup (m : Marker) (is : List Nat) : Outcome (List Nat × Marker) :=
  m.advance.compact is.toArray 0 0 is.length

/-- The first occurrences in each of several lists, one after the other. -/
def dedupAll (m : Marker) : List (List Nat) → Outcome (List (List Nat) × Marker)
  | [] => .ok ([], m)
  | is :: rest => do
    let (is, m) ← m.dedup is
    let (rest, m) ← m.dedupAll rest
    return (is :: rest, m)

end Marker

end EliminationOrder

/-
A marker is a set of numbers.

`MarkedSet` is what a marker stands for: the numbers in the set, and how often it has been
emptied, which is all that the number of a generation depends on.  Its operations are those
of sets.  A marker represents a set as long as it can be trusted and contains the same
numbers (`Represents`).  One request keeps this and is answered as the set answers it
(`Represents.step`), whichever it is; for lists of requests that is carried through by
induction (`Represents.run`).

The generations that words can count run out.  What is marked does not depend on that, so no
bound on their number is asked for: after the last one they are counted from one again.
-/
import EliminationOrder.Proofs.Marker
import EliminationOrder.Proofs.Script
import EliminationOrder.Session.Marker
import Mathlib.Data.Finset.Dedup
import Mathlib.Data.Finset.Range

namespace EliminationOrder

/-- A set of numbers that is emptied from time to time. -/
structure MarkedSet where
  members : Finset Nat
  /-- How often it has been emptied. -/
  clearings : Nat

namespace MarkedSet

open Marker (Request Answer)

/-- All numbers below `n`. -/
def full (n : Nat) : MarkedSet :=
  ⟨Finset.range n, 0⟩

/-- The number of its generation: zero at first, then from one to the last one again and again. -/
def generation (s : MarkedSet) : Nat :=
  match s.clearings with
  | 0 => 0
  | k + 1 => k % Marker.lastGeneration + 1

/-- The set without its members. -/
def emptied (s : MarkedSet) : MarkedSet :=
  ⟨∅, s.clearings + 1⟩

/-- What a set answers to a request, and what becomes of it. -/
def step (s : MarkedSet) : Request → Answer × MarkedSet
  | .advance => (.generation s.emptied.generation, s.emptied)
  | .mark i => (.done, { s with members := insert i s.members })
  | .isMarked i => (.flag (decide (i ∈ s.members)), s)
  | .dedup is => (.list is.eraseDups, { s.emptied with members := is.toFinset })

/-- The answers of a set to a list of requests. -/
def run (s : MarkedSet) : List Request → List Answer
  | [] => []
  | r :: rs => (s.step r).1 :: (s.step r).2.run rs

/-- What becomes of a set after a list of requests. -/
def final (s : MarkedSet) (requests : List Request) : MarkedSet :=
  requests.foldl (fun s r => (s.step r).2) s

end MarkedSet

namespace Marker

variable {n : Nat} {m m' : Marker} {s : MarkedSet}

/-- The request only names numbers below `n`. -/
def Request.InRange (n : Nat) : Request → Prop
  | .advance => True
  | .mark i => i < n
  | .isMarked i => i < n
  | .dedup is => ∀ i ∈ is, i < n

instance (n : Nat) : ∀ r : Request, Decidable (r.InRange n)
  | .advance => .isTrue trivial
  | .mark i => inferInstanceAs (Decidable (i < n))
  | .isMarked i => inferInstanceAs (Decidable (i < n))
  | .dedup is => inferInstanceAs (Decidable (∀ i ∈ is, i < n))

/-! ### Generations -/

theorem generation_mark {i : Nat} (h : m.mark i = .ok m') : m'.generation = m.generation := by
  unfold mark at h
  split at h
  · rw [← Except.ok.inj h]
  · cases h

/-- Marking, however much, goes on in one generation. -/
theorem generation_claim {is js : List Nat} (h : m.claim is = .ok (js, m')) :
    m'.generation = m.generation :=
  claim_preserves (P := fun c => c.generation = m.generation)
    (fun _ _ _ hc hmark => (generation_mark hmark).trans hc) rfl h

/-- The next generation is one more, and after the last one it is the first again. -/
theorem generation_advance (h : m.generation = s.generation) :
    m.advance.generation = s.emptied.generation := by
  have hnext : m.advance.generation
      = if m.generation = lastGeneration then 1 else m.generation + 1 := by
    unfold advance
    split <;> rfl
  rw [hnext, h]
  unfold MarkedSet.generation MarkedSet.emptied lastGeneration
  cases s.clearings with
  | zero => rfl
  | succ k =>
      show (if k % 4294967295 + 1 = 4294967295 then 1 else k % 4294967295 + 1 + 1)
        = (k + 1) % 4294967295 + 1
      split <;> omega

/-! ### One request -/

/-- The marker can be trusted, and is marked where the set has its members. -/
structure Represents (n : Nat) (m : Marker) (s : MarkedSet) : Prop where
  ready : Ready n m
  contains : ∀ i, m.contains i = decide (i ∈ s.members)
  generation : m.generation = s.generation

namespace Represents

/-- A fresh marker is marked everywhere. -/
theorem fresh (n : Nat) : Represents n (Marker.fresh n) (MarkedSet.full n) := by
  refine ⟨fresh_ready n, ?_, rfl⟩
  intro i
  rw [Bool.eq_iff_iff]
  simp [Marker.contains, Marker.fresh, MarkedSet.full, Array.getElem?_replicate]

theorem advance (h : Represents n m s) : Represents n m.advance s.emptied := by
  refine ⟨advance_ready h.ready, ?_, generation_advance h.generation⟩
  intro i
  rw [contains_advance h.ready]
  rfl

theorem mark (h : Represents n m s) {i : Nat} (hi : i < n) :
    ∃ m', m.mark i = .ok m' ∧ Represents n m' { s with members := insert i s.members } := by
  obtain ⟨m', hmark, hready, hcontains⟩ := mark_ok h.ready hi
  refine ⟨m', hmark, hready, ?_, (generation_mark hmark).trans h.generation⟩
  intro j
  rw [hcontains, h.contains, Bool.eq_iff_iff]
  simp

theorem dedup (h : Represents n m s) {is : List Nat} (his : ∀ i ∈ is, i < n) :
    ∃ m', m.dedup is = .ok (is.eraseDups, m') ∧
      Represents n m' { s.emptied with members := is.toFinset } := by
  obtain ⟨m', hdedup, hready, hcontains⟩ := dedup_ok h.ready is his
  have hclaim := hdedup
  rw [dedup_eq_claim] at hclaim
  refine ⟨m', hdedup, hready, ?_, (generation_claim hclaim).trans h.advance.generation⟩
  intro j
  rw [hcontains, Bool.eq_iff_iff]
  simp

/-- **A request is answered as the set answers it**, and the marker goes on representing the set. -/
theorem step (h : Represents n m s) {r : Request} (hr : r.InRange n) :
    ∃ m', m.step r = .ok ((s.step r).1, m') ∧ Represents n m' (s.step r).2 := by
  cases r with
  | advance =>
      refine ⟨m.advance, ?_, h.advance⟩
      show Except.ok (Answer.generation m.advance.generation, m.advance) = _
      rw [h.advance.generation]
      rfl
  | mark i =>
      obtain ⟨m', hmark, h'⟩ := h.mark hr
      refine ⟨m', ?_, h'⟩
      rw [Marker.step, hmark]
      rfl
  | isMarked i =>
      refine ⟨m, ?_, h⟩
      rw [Marker.step, isMarked_eq h.ready hr, h.contains]
      rfl
  | dedup is =>
      obtain ⟨m', hdedup, h'⟩ := h.dedup hr
      refine ⟨m', ?_, h'⟩
      rw [Marker.step, hdedup]
      rfl

/-! ### Lists of requests -/

theorem run (requests : List Request) :
    ∀ {m : Marker} {s : MarkedSet}, Represents n m s → (∀ r ∈ requests, r.InRange n) →
      m.run requests = (s.run requests).map .ok ∧
        Represents n (Script.final Marker.step m requests) (s.final requests) := by
  induction requests with
  | nil =>
      intro m s h _
      exact ⟨rfl, h⟩
  | cons r rs ih =>
      intro m s h hrange
      obtain ⟨m', hstep, h'⟩ := h.step (hrange r (by simp))
      obtain ⟨hanswers, hfinal⟩ := ih h' fun r' hr' => hrange r' (by simp [hr'])
      refine ⟨?_, ?_⟩
      · show (Script.settle m (m.step r)).1 :: (Script.settle m (m.step r)).2.run rs = _
        rw [hstep]
        exact congrArg _ hanswers
      · show Represents n (Script.final Marker.step (Script.settle m (m.step r)).2 rs) _
        rw [hstep]
        exact hfinal

end Represents

/--
**A marker behaves as a set.**  Asked anything that names only numbers below its size, a fresh
marker gives the answers of a set that has all of these numbers at first: starting a
generation empties it, marking adds a number, and a number is marked when it is a member.
Whatever has been asked, the marker contains what the set has by then, and a list that is then
rid of its repetitions keeps its first occurrences, in order, and leaves exactly its elements
marked.
-/
theorem run_eq_markedSet (n : Nat) (requests : List Request)
    (hrange : ∀ r ∈ requests, r.InRange n) :
    (fresh n).run requests = ((MarkedSet.full n).run requests).map .ok ∧
    (∀ i, (Script.final step (fresh n) requests).contains i = true ↔
      i ∈ ((MarkedSet.full n).final requests).members) ∧
    ∀ is : List Nat, (∀ i ∈ is, i < n) →
      ∃ kept m, (Script.final step (fresh n) requests).dedup is = .ok (kept, m) ∧
        FirstOccurrences is kept ∧ ∀ i, m.contains i = true ↔ i ∈ is := by
  obtain ⟨hanswers, hfinal⟩ := (Represents.fresh n).run requests hrange
  refine ⟨hanswers, fun i => by rw [hfinal.contains, decide_eq_true_iff], ?_⟩
  intro is his
  obtain ⟨m, hdedup, hm⟩ := hfinal.dedup his
  refine ⟨is.eraseDups, m, hdedup, firstOccurrences_eraseDups is, ?_⟩
  intro i
  rw [hm.contains, decide_eq_true_iff, List.mem_toFinset]

/-- Everything is marked at first, and only what a list names after its repetitions are dropped. -/
theorem run_eq_markedSet_four :
    let requests : List Request :=
      [.isMarked 3, .advance, .mark 2, .isMarked 2, .isMarked 3, .dedup [3, 1, 3, 0, 1],
        .isMarked 2, .isMarked 0, .advance]
    (∀ r ∈ requests, r.InRange 4) ∧
      (fresh 4).run requests
        = [.flag true, .generation 1, .done, .flag true, .flag false, .list [3, 1, 0],
            .flag false, .flag true, .generation 3].map .ok ∧
      (∀ i ∈ [2, 3, 2], i < 4) ∧
      ∃ kept m, (Script.final step (fresh 4) requests).dedup [2, 3, 2] = .ok (kept, m) ∧
        kept = [2, 3] ∧ m.contains 3 = true ∧ m.contains 0 = false := by
  intro requests
  have hrange : ∀ r ∈ requests, r.InRange 4 := by decide
  have hlist : ∀ i ∈ [2, 3, 2], i < 4 := by decide
  obtain ⟨hanswers, -, hdedup⟩ := run_eq_markedSet 4 requests hrange
  obtain ⟨kept, m, hkept, hfirst, hmarked⟩ := hdedup [2, 3, 2] hlist
  refine ⟨hrange, hanswers.trans rfl, hlist, kept, m, hkept, ?_, ?_, ?_⟩
  · rw [firstOccurrences_iff.mp hfirst]
    rfl
  · exact (hmarked 3).mpr (by decide)
  · rw [← Bool.not_eq_true, hmarked]
    decide

end Marker

end EliminationOrder

/-
A dense matrix is a store.

Whatever a dense matrix is asked, an entry is the value that was last written to it, or the
one that was there at first if there has been no such write.  Only writes to positions that
the matrix has count; others are faults and change nothing, although many of them would name a
place in the array, that of another entry.  What one request writes is `Request.written`, and
a request leaves the matrix overwritten by just that (`overwritten_step`); later writes go
over earlier ones, so the same holds of lists of requests (`overwritten_final`).
-/
import EliminationOrder.Proofs.Matrix.Bisection
import EliminationOrder.Proofs.Matrix.Dense
import EliminationOrder.Proofs.Script
import EliminationOrder.Session.Dense

namespace EliminationOrder.DenseMatrix

open Script

variable {α : Type}

/-- What a request writes to `(k, l)` in a matrix of this shape, if it is a write there. -/
def Request.written (nrows ncols k l : Nat) : Request α → Option α
  | .set i j x => if (i < nrows ∧ j < ncols) ∧ k = i ∧ l = j then some x else none
  | _ => none

/-- What was last written to `(k, l)` in a matrix of this shape, if anything was. -/
def lastWritten (nrows ncols k l : Nat) (requests : List (Request α)) : Option α :=
  requests.reverse.findSome? (Request.written nrows ncols k l)

variable [Entry α] {d : DenseMatrix α} {i j : Nat}

/-! ### One request -/

/-- A write outside the matrix is a fault. -/
theorem step_set_error (h : ¬ (i < d.nrows ∧ j < d.ncols)) (x : α) :
    d.step (.set i j x) = .error (.fault (.noPosition i j d.nrows d.ncols)) := by
  rw [step, DenseMatrix.set, if_neg h]
  rfl

/-- Where nothing is written and nothing changes, the matrix is overwritten by nothing. -/
theorem overwritten_of_look {r : Request α} (hlook : (settle d (d.step r)).2 = d)
    (hr : ∀ k l, r.written d.nrows d.ncols k l = none) :
    Overwritten d (settle d (d.step r)).2 fun k l => r.written d.nrows d.ncols k l := by
  rw [hlook]
  exact (Overwritten.refl d).congr hr

/-- **A request overwrites what it writes to, and nothing else.** -/
theorem overwritten_step (d : DenseMatrix α) (r : Request α) :
    Overwritten d (settle d (d.step r)).2 fun k l => r.written d.nrows d.ncols k l := by
  cases r with
  | set i j x =>
      by_cases h : i < d.nrows ∧ j < d.ncols
      · obtain ⟨d', hset, hwritten⟩ := set_ok h.1 h.2 x
        rw [step, hset]
        exact hwritten.congr fun k l => by simp [Request.written, h]
      · rw [step_set_error h]
        exact (Overwritten.refl d).congr fun k l => by simp [Request.written, h]
  | get i j => exact overwritten_of_look (settle_look d (d.get i j) _) fun _ _ => rfl
  | patterns => exact overwritten_of_look (settle_look d _ _) fun _ _ => rfl
  | entries => exact overwritten_of_look (settle_look d _ _) fun _ _ => rfl
  | equalsZeros => exact overwritten_of_look rfl fun _ _ => rfl
  | order kind decay maxHops =>
      refine overwritten_of_look ?_ fun _ _ => rfl
      rw [step]
      cases Method.ofKind kind decay maxHops with
      | error e => rfl
      | ok method => exact settle_look d (method.appraise (.dense d)) _

/-! ### Lists of requests -/

theorem overwritten_final (requests : List (Request α)) :
    ∀ d : DenseMatrix α, Overwritten d (final step d requests) fun k l =>
      lastWritten d.nrows d.ncols k l requests := by
  induction requests with
  | nil => exact Overwritten.refl
  | cons r rs ih =>
      intro d
      -- The requests after the first one start from what it leaves, in the same shape.
      have hfirst := overwritten_step d r
      have hrest := ih (settle d (d.step r)).2
      refine (hfirst.trans hrest).congr fun k l => ?_
      rw [lastWritten, List.reverse_cons, List.findSome?_append, hfirst.nrows, hfirst.ncols]
      simp [lastWritten]

/--
**A dense matrix is a store, and a dense copy stores what is copied.**  Whatever a dense matrix
has been asked, it keeps its shape.  A write inside it is answered, and one outside is a fault
and leaves the matrix as if it had not been asked.  Each entry is the value that was last
written there, by a write inside the matrix, or what was there at first.

A sparse matrix of any shape can be written out in full, and the copy has its shape and its
entries: what halving finds in the arrays of the sparse matrix, and zero elsewhere.
-/
theorem store_and_copy :
    (∀ (d : DenseMatrix α) (requests : List (Request α)),
      let e := final step d requests
      (e.nrows = d.nrows ∧ e.ncols = d.ncols) ∧
      (∀ i j x, i < d.nrows ∧ j < d.ncols → ∃ e', e.step (.set i j x) = .ok (.done, e')) ∧
      (∀ i j x, ¬ (i < d.nrows ∧ j < d.ncols) →
        e.step (.set i j x) = .error (.fault (.noPosition i j d.nrows d.ncols)) ∧
          final step d (requests ++ [.set i j x]) = e) ∧
      ∀ i j, i < d.nrows → j < d.ncols → ∃ x, d.get i j = .ok x ∧
        e.get i j = .ok ((lastWritten d.nrows d.ncols i j requests).getD x)) ∧
    ∀ a : SparseMatrix α, ∃ d, a.toDense = .ok d ∧ d.nrows = a.nrows ∧ d.ncols = a.ncols ∧
      ∀ i j, i < a.nrows → j < a.ncols → ∃ x, a.get i j = .ok x ∧ d.get i j = .ok x ∧
        (a.search i j).getD 0 = x := by
  constructor
  · intro d requests e
    have h : Overwritten d e _ := overwritten_final requests d
    refine ⟨⟨h.nrows, h.ncols⟩, ?_, ?_, ?_⟩
    · intro i j x hij
      rw [← h.nrows, ← h.ncols] at hij
      obtain ⟨e', hset, -⟩ := set_ok hij.1 hij.2 x
      exact ⟨e', by rw [step, hset]; rfl⟩
    · intro i j x hij
      rw [← h.nrows, ← h.ncols] at hij
      have hfault := step_set_error hij x
      refine ⟨by rw [hfault, h.nrows, h.ncols], ?_⟩
      rw [final_append]
      show (settle e (e.step (.set i j x))).2 = e
      rw [hfault]
      rfl
    · intro i j hi hj
      obtain ⟨x, hx⟩ := StoredMatrix.get_ok (a := .dense d) hi hj
      refine ⟨x, hx, ?_⟩
      have hread : d.get i j = .ok x := hx
      rw [h.get i j hi hj, hread]
      cases lastWritten d.nrows d.ncols i j requests <;> rfl
  · intro a
    obtain ⟨d, hd, hnrows, hncols, hget⟩ := a.toDense_ok
    refine ⟨d, hd, hnrows, hncols, ?_⟩
    intro i j hi hj
    have hsearch := SparseMatrix.get_eq_search hj i
    exact ⟨_, hsearch, (hget i j hi hj).trans hsearch, rfl⟩

/-- The third row of two would lie in the next column, and a write there is a fault. -/
theorem store_and_copy_twoByThree :
    let d : DenseMatrix UInt8 := ⟨2, 3, #[1, 2, 3, 4, 5, 6], rfl⟩
    let requests : List (Request UInt8) :=
      [.set 1 2 9, .set 2 0 7, .set 1 2 8, .get 0 1, .set 0 3 7]
    let e := final step d requests
    (0 < d.nrows ∧ 1 < d.ncols) ∧ e.get 0 1 = .ok 3 ∧
      (1 < d.nrows ∧ 2 < d.ncols) ∧ e.get 1 2 = .ok 8 ∧
      (∃ e', e.step (.set 1 2 5) = .ok (.done, e')) ∧
      ¬ (2 < d.nrows ∧ 0 < d.ncols) ∧
      e.step (.set 2 0 7) = .error (.fault (.noPosition 2 0 2 3)) ∧
      final step d (requests ++ [.set 2 0 7]) = e ∧
      ∃ c, SparseMatrix.zerosStored.toDense = .ok c ∧ c.get 0 1 = .ok 2 ∧ c.get 1 1 = .ok 0 := by
  intro d requests e
  have hrow : 0 < d.nrows ∧ 1 < d.ncols := by decide
  have hlast : 1 < d.nrows ∧ 2 < d.ncols := by decide
  have hout : ¬ (2 < d.nrows ∧ 0 < d.ncols) := by decide
  obtain ⟨hstore, -⟩ := @store_and_copy UInt8 _
  obtain ⟨-, hanswered, hfault, hentry⟩ := hstore d requests
  obtain ⟨x, hx, hkept⟩ := hentry 0 1 hrow.1 hrow.2
  obtain ⟨y, -, hwritten⟩ := hentry 1 2 hlast.1 hlast.2
  obtain rfl : 3 = x := Except.ok.inj hx
  obtain ⟨-, hcopy⟩ := @store_and_copy Int64 _
  obtain ⟨c, hc, -, -, hentries⟩ := hcopy SparseMatrix.zerosStored
  obtain ⟨u, hu, hcu, -⟩ := hentries 0 1 (by decide) (by decide)
  obtain ⟨v, hv, hcv, -⟩ := hentries 1 1 (by decide) (by decide)
  obtain rfl : 2 = u := Except.ok.inj hu
  obtain rfl : 0 = v := Except.ok.inj hv
  exact ⟨hrow, hkept, hlast, hwritten, hanswered 1 2 5 hlast, hout, (hfault 2 0 7 hout).1,
    (hfault 2 0 7 hout).2, c, hc, hcu, hcv⟩

end EliminationOrder.DenseMatrix

/-
Every method orders every matrix it is meant for, and refuses all others.

Four of the five methods read a matrix as the pattern of a system to be eliminated and
need it square; the greedy row rule takes any shape.  Within these limits nothing can go
wrong: no count falls below zero, no prediction is off, no node is taken twice or left
behind.  Each method has its own reason, proved beside it, and here they are put together.

An answer is one thing and an end is another.  The loops of this library are given a
number of rounds in advance.  The two greedy rules fault if that is not enough, so their
answers show that it was; `RoundsSuffice` says it for the others, whose loops would just
stop: more rounds would change nothing.
-/
import EliminationOrder.Message
import EliminationOrder.Ordering.Method
import EliminationOrder.Proofs.Ordering.HopDegree
import EliminationOrder.Proofs.Ordering.MinimumDegree
import EliminationOrder.Proofs.Ordering.MinimumFill
import EliminationOrder.Proofs.Ordering.ZeroCounts

namespace EliminationOrder.Method

variable {α : Type} [Entry α]

/-! ### Matrices that are ordered -/

theorem order_minimumDegree_ok {a : StoredMatrix α} (hsquare : a.nrows = a.ncols) :
    ∃ p, exactMinimumDegree.order a = .ok p ∧ p.Perm (List.range a.nrows) := by
  obtain ⟨g, hg, hfresh, -⟩ := EliminationGraph.ofMatrix_ok hsquare
  obtain ⟨p, g', horder, hgreedy⟩ := MinimumDegree.order_ok hfresh.sound
  exact ⟨p, by simp [order, hg, horder], hgreedy.perm_range hfresh⟩

theorem order_minimumFill_ok {a : StoredMatrix α} (hsquare : a.nrows = a.ncols) :
    ∃ p, greedyMinimumFill.order a = .ok p ∧ p.Perm (List.range a.nrows) := by
  obtain ⟨g, hg, hfresh, -⟩ := EliminationGraph.ofMatrix_ok hsquare
  obtain ⟨p, g', horder, hgreedy⟩ := MinimumFill.order_ok hfresh.sound
  exact ⟨p, by simp [order, hg, horder], hgreedy.perm_range hfresh⟩

theorem order_hopDegree_ok {a : StoredMatrix α} (k : HopDegree) (hsquare : a.nrows = a.ncols) :
    ∃ p, (hopDegree k).order a = .ok p ∧ p.Perm (List.range a.nrows) := by
  obtain ⟨k', hk'⟩ := k.ofDecay_decay
  obtain ⟨g, hg, hfresh, -⟩ := EliminationGraph.ofMatrix_ok hsquare
  obtain ⟨p, horder, hperm⟩ := HopDegree.order_perm (k := k) hfresh.sound.valid
  rw [hfresh.nnodes] at hperm
  exact ⟨p, by simp [order, hk', hg, horder], hperm⟩

theorem order_greedyRow_ok (a : StoredMatrix α) :
    ∃ p, greedyRow.order a = .ok p ∧ p.Perm (List.range a.nrows) := by
  obtain ⟨z, hz, hleft⟩ := ZeroCounts.ofMatrix_ok a
  refine ⟨z.order fun _ => 0, by rw [order, EliminationOrder.greedyRow, hz]; rfl, ?_⟩
  rw [← hleft]
  exact z.order_perm _

theorem order_approximateFill_ok {a : StoredMatrix α} (hsquare : a.nrows = a.ncols) :
    ∃ p, approximateFill.order a = .ok p ∧ p.Perm (List.range a.nrows) := by
  obtain ⟨z, hz, hleft⟩ := ZeroCounts.ofMatrix_ok a
  refine ⟨z.order (· / 2), ?_, ?_⟩
  · rw [order, EliminationOrder.approximateFill, EliminationGraph.requireSquare_eq_ok.mpr hsquare,
      Outcome.ok_bind, hz]
    rfl
  · rw [← hleft]
    exact z.order_perm _

/-- No method fails on a square matrix. -/
theorem order_square_ok (method : Method) {a : StoredMatrix α} (hsquare : a.nrows = a.ncols) :
    ∃ p, method.order a = .ok p ∧ p.Perm (List.range a.nrows) := by
  cases method with
  | exactMinimumDegree => exact order_minimumDegree_ok hsquare
  | greedyMinimumFill => exact order_minimumFill_ok hsquare
  | approximateFill => exact order_approximateFill_ok hsquare
  | greedyRow => exact order_greedyRow_ok a
  | hopDegree k => exact order_hopDegree_ok k hsquare

/-! ### Matrices that are refused -/

/-- A method that eliminates has no use for a matrix that is not square. -/
theorem order_error {a : StoredMatrix α} {method : Method} (hmethod : method ≠ .greedyRow)
    (hshape : a.nrows ≠ a.ncols) :
    method.order a = .error (.refused (.notSquare a.nrows a.ncols)) := by
  have hgraph := EliminationGraph.ofMatrix_error hshape
  cases method with
  | exactMinimumDegree => rw [order, hgraph]; rfl
  | greedyMinimumFill => rw [order, hgraph]; rfl
  | approximateFill => rw [order, EliminationOrder.approximateFill, requireSquare, if_neg hshape]; rfl
  | greedyRow => exact absurd rfl hmethod
  | hopDegree k =>
      obtain ⟨k', hk'⟩ := k.ofDecay_decay
      rw [order, hk', Outcome.ok_bind, hgraph]
      rfl

/-! ### All methods -/

/-- No loop of an order is ended by its bound on rounds: with more of them it would do the same. -/
structure RoundsSuffice (a : StoredMatrix α) : Prop where
  zeroCounts : ∀ z, ZeroCounts.ofMatrix a = .ok z → ∀ lower rounds, z.left.length ≤ rounds →
    ZeroCounts.run lower rounds z = z.order lower
  levels : ∀ g, EliminationGraph.ofMatrix a = .ok g → ∀ m start rounds,
    Marker.Ready g.nnodes m → start < g.nnodes → g.nnodes ≤ rounds →
    (HopDegree.levels g rounds m [start]).map Prod.fst
      = (HopDegree.levels g g.nnodes m [start]).map Prod.fst

theorem roundsSuffice (a : StoredMatrix α) : RoundsSuffice a where
  zeroCounts _ _ _ _ hrounds := ZeroCounts.run_eq_order hrounds
  levels g hg _ _ _ hready hstart hrounds := by
    have hbuilt : EliminationGraph.Built g := .ofMatrix hg
    exact HopDegree.levels_map_fst_eq hbuilt.fresh.sound.valid hready hstart hrounds

/--
**Every method gives a full order or a clean refusal.**  On a square matrix, and by the
greedy row rule on any, a method answers with every row once.  On any other matrix it
refuses the argument.  No loop is cut off on the way.
-/
theorem order_answers (method : Method) (a : StoredMatrix α) :
    (method = .greedyRow ∨ a.nrows = a.ncols →
      ∃ p, method.order a = .ok p ∧ p.Perm (List.range a.nrows)) ∧
    (¬ (method = .greedyRow ∨ a.nrows = a.ncols) →
      ∃ r, method.order a = .error (.refused r) ∧ r.argument = "matrix") ∧
    RoundsSuffice a := by
  refine ⟨?_, ?_, roundsSuffice a⟩
  · intro h
    cases method with
    | greedyRow => exact order_greedyRow_ok a
    | exactMinimumDegree => exact order_minimumDegree_ok (by simpa using h)
    | greedyMinimumFill => exact order_minimumFill_ok (by simpa using h)
    | approximateFill => exact order_approximateFill_ok (by simpa using h)
    | hopDegree k => exact order_hopDegree_ok k (by simpa using h)
  · intro h
    obtain ⟨hmethod, hshape⟩ := not_or.mp h
    exact ⟨_, order_error hmethod hshape, rfl⟩

/-- Two rows and three columns, the first row empty: rows can be ordered, but not eliminated. -/
def wide : StoredMatrix UInt8 :=
  .dense ⟨2, 3, #[0, 1, 0, 1, 0, 1], rfl⟩

/-- A square matrix under a hop ordering that looks at no hop, and one that is wide. -/
theorem order_answers_wide :
    let square : StoredMatrix UInt8 := .dense ⟨2, 2, #[0, 1, 0, 1], rfl⟩
    let hopless := Method.hopDegree (HopDegree.standard.withMaxHops 0)
    (hopless = .greedyRow ∨ square.nrows = square.ncols) ∧
      (∃ p, hopless.order square = .ok p ∧ p.Perm (List.range 2)) ∧
      ¬ (hopless = .greedyRow ∨ wide.nrows = wide.ncols) ∧
      (∃ r, hopless.order wide = .error (.refused r) ∧ r.argument = "matrix") ∧
      ∃ p, greedyRow.order wide = .ok p ∧ p.Perm (List.range 2) := by
  intro square hopless
  have hsquare : hopless = .greedyRow ∨ square.nrows = square.ncols := Or.inr rfl
  have hwide : ¬ (hopless = .greedyRow ∨ wide.nrows = wide.ncols) := by
    simp [hopless, wide, StoredMatrix.nrows, StoredMatrix.ncols]
  exact ⟨hsquare, (order_answers hopless square).1 hsquare, hwide,
    (order_answers hopless wide).2.1 hwide, (order_answers greedyRow wide).1 (Or.inl rfl)⟩

end EliminationOrder.Method

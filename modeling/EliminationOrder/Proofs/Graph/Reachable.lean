/-
The graphs that can arise.

A graph is built from edges or from a square matrix, and then nodes of it are eliminated
or their fill is predicted, in any order.  `Calls` is any sequence of the latter, and
`Reachable` is both together and nothing else.  `Calls.sound` is the induction over all of
it: whatever is called, the graph satisfies the invariant, and its marker can be trusted.
`Run` follows a list of eliminations through the graphs in between, with the number of
edges they create.
-/
import EliminationOrder.Proofs.Graph.Construction
import EliminationOrder.Proofs.Graph.Prediction
import EliminationOrder.Proofs.Matrix.Pattern

namespace EliminationOrder

/-! ### The graph of a matrix -/

/-- The symmetrised pattern: different positions with an entry that is not zero on either side. -/
def StoredMatrix.Joined {α : Type} [Entry α] (a : StoredMatrix α) (i j : Nat) : Prop :=
  i ≠ j ∧ (a.Nonzero i j ∨ a.Nonzero j i)

instance {α : Type} [Entry α] (a : StoredMatrix α) (i j : Nat) : Decidable (a.Joined i j) :=
  inferInstanceAs (Decidable (_ ∧ _))

/-- The positions that are not zero, row by row. -/
def StoredMatrix.positions {α : Type} [Entry α] (a : StoredMatrix α) : List (Nat × Nat) :=
  patternPairs 0 ((List.range a.nrows).map a.nonzeroColumns)

namespace EliminationGraph

variable {α : Type} [Entry α] {a : StoredMatrix α} {g g' : EliminationGraph} {n k : Nat}

theorem requireSquare_eq_ok {nrows ncols : Nat} :
    requireSquare nrows ncols = .ok () ↔ nrows = ncols := by
  unfold requireSquare
  split <;> simp_all

theorem mem_positions {i j : Nat} : (i, j) ∈ a.positions ↔ a.Nonzero i j := by
  rw [StoredMatrix.positions, mem_patternPairs, Nat.sub_zero]
  by_cases hi : i < a.nrows
  · simp [hi, StoredMatrix.mem_nonzeroColumns]
  · have hnone : ¬ a.Nonzero i j := fun h => hi h.1
    simp [hnone, Nat.not_lt.mp hi]

theorem lt_of_mem_positions (hsquare : a.nrows = a.ncols) :
    ∀ e ∈ a.positions, e.1 < a.nrows ∧ e.2 < a.nrows := by
  rintro ⟨i, j⟩ he
  obtain ⟨hi, hj, -⟩ := mem_positions.mp he
  exact ⟨hi, by rw [hsquare]; exact hj⟩

/-- The graph of a square matrix has its nonzero positions as edges. -/
theorem ofMatrix_eq_ofEdges (hsquare : a.nrows = a.ncols) :
    ofMatrix a = ofEdges a.nrows a.positions := by
  rw [ofMatrix, requireSquare_eq_ok.mpr hsquare, Outcome.ok_bind, StoredMatrix.rowPatterns_eq,
    Outcome.ok_bind, StoredMatrix.positions]

/-- **A square matrix makes the graph of its symmetrised pattern.** -/
theorem ofMatrix_ok (hsquare : a.nrows = a.ncols) :
    ∃ g, ofMatrix a = .ok g ∧ Fresh a.nrows g ∧ ∀ i j, j ∈ g.adjacent i ↔ a.Joined i j := by
  obtain ⟨g, hok, hfresh, hadj⟩ := ofEdges_ok (lt_of_mem_positions hsquare)
  exact ⟨g, by rw [ofMatrix_eq_ofEdges hsquare, hok], hfresh,
    fun i j => by rw [hadj, mem_positions, mem_positions, StoredMatrix.Joined]⟩

/-- A matrix that is not square is refused. -/
theorem ofMatrix_error (hshape : a.nrows ≠ a.ncols) :
    ofMatrix a = .error (.refused (.notSquare a.nrows a.ncols)) := by
  rw [ofMatrix, requireSquare, if_neg hshape]
  rfl

/-- A matrix that is not square makes none. -/
theorem square_of_ofMatrix (h : ofMatrix a = .ok g) : a.nrows = a.ncols := by
  obtain ⟨_, hsquare, -⟩ := Outcome.bind_eq_ok.mp h
  exact requireSquare_eq_ok.mp hsquare

/-! ### Built and reachable graphs -/

/-- A graph as either of the two constructions gives it. -/
inductive Built : EliminationGraph → Prop
  | ofEdges {n : Nat} {edges : List (Nat × Nat)} {g : EliminationGraph}
      (h : ofEdges n edges = .ok g) : Built g
  | ofMatrix {α : Type} [Entry α] {a : StoredMatrix α} {g : EliminationGraph}
      (h : ofMatrix a = .ok g) : Built g

theorem Built.fresh (h : Built g) : Fresh g.nnodes g := by
  cases h with
  | @ofEdges n edges _ h =>
      obtain ⟨g', hok, hfresh, -⟩ := ofEdges_ok (range_of_ofEdges h)
      rw [h, Except.ok.injEq] at hok
      subst hok
      rw [hfresh.nnodes]
      exact hfresh
  | ofMatrix h =>
      obtain ⟨g', hok, hfresh, -⟩ := ofMatrix_ok (square_of_ofMatrix h)
      rw [h, Except.ok.injEq] at hok
      subst hok
      rw [hfresh.nnodes]
      exact hfresh

/-- A prediction that answered has counted the missing edges, and written marks only. -/
theorem withMarker_of_predictFill (hg : g.Sound) (h : g.predictFill n = .ok (k, g')) :
    g.isActive n = true ∧ k = g.missing n ∧
      ∃ m, g' = g.withMarker m ∧ Marker.Ready g.nnodes m := by
  obtain ⟨ns, hns, -⟩ := Outcome.bind_eq_ok.mp h
  have hn := isActive_of_activeNeighbors hns
  obtain ⟨m, hok, hready⟩ := predictFill_ok hg hn
  rw [h] at hok
  obtain ⟨hk, hg'⟩ := Outcome.ok_pair_inj.mp hok
  exact ⟨hn, hk, m, hg', hready⟩

/-- A list of eliminations that answered has answered for the first and for the others. -/
theorem eliminateAll_cons {ns : List Nat} (h : g.eliminateAll (n :: ns) = .ok (k, g')) :
    ∃ added g₁ more, g.eliminate n = .ok (added, g₁) ∧ g₁.eliminateAll ns = .ok (more, g') ∧
      k = added + more := by
  obtain ⟨⟨added, g₁⟩, helim, hrest⟩ := Outcome.bind_eq_ok.mp h
  obtain ⟨⟨more, g₂⟩, hall, heq⟩ := Outcome.bind_eq_ok.mp hrest
  obtain ⟨rfl, rfl⟩ := Outcome.ok_pair_inj.mp heq
  exact ⟨added, g₁, more, helim, hall, rfl⟩

/-! ### Calls -/

/-- `g'` is what is made of `g` by any number of calls, each of which answered. -/
inductive Calls : EliminationGraph → EliminationGraph → Prop
  | refl (g : EliminationGraph) : Calls g g
  | eliminate {g₀ g g' : EliminationGraph} {n k : Nat} (h : Calls g₀ g)
      (hstep : g.eliminate n = .ok (k, g')) : Calls g₀ g'
  | predictFill {g₀ g g' : EliminationGraph} {n k : Nat} (h : Calls g₀ g)
      (hstep : g.predictFill n = .ok (k, g')) : Calls g₀ g'

/-- A built graph, after any eliminations and predictions. -/
def Reachable (g : EliminationGraph) : Prop :=
  ∃ g₀, Built g₀ ∧ Calls g₀ g

namespace Calls

variable {g₁ g₂ g₃ : EliminationGraph}

theorem trans (h₁ : Calls g₁ g₂) (h₂ : Calls g₂ g₃) : Calls g₁ g₃ := by
  induction h₂ with
  | refl => exact h₁
  | eliminate _ hstep ih => exact ih.eliminate hstep
  | predictFill _ hstep ih => exact ih.predictFill hstep

theorem of_eliminate (h : g.eliminate n = .ok (k, g')) : Calls g g' :=
  (Calls.refl g).eliminate h

theorem of_predictFill (h : g.predictFill n = .ok (k, g')) : Calls g g' :=
  (Calls.refl g).predictFill h

/-- A list of eliminations is one call after the other. -/
theorem of_eliminateAll {ns : List Nat} (h : g.eliminateAll ns = .ok (k, g')) : Calls g g' := by
  induction ns generalizing g k with
  | nil =>
      obtain ⟨-, rfl⟩ := Outcome.ok_pair_inj.mp h
      exact Calls.refl g
  | cons n ns ih =>
      obtain ⟨_, _, _, helim, hall, -⟩ := eliminateAll_cons h
      exact (of_eliminate helim).trans (ih hall)

/-- **Calls keep a graph sound.** -/
theorem sound (h : Calls g g') (hg : g.Sound) : g'.Sound := by
  induction h with
  | refl => exact hg
  | eliminate _ hstep ih => exact (eliminated_of_eliminate ih hstep).2.sound
  | predictFill _ hstep ih =>
      obtain ⟨-, -, m, rfl, hready⟩ := withMarker_of_predictFill ih hstep
      exact ih.withMarker hready

/-- **No call brings a node back.** -/
theorem isActive_of_isActive (h : Calls g g') (hg : g.Sound) {i : Nat}
    (hi : g'.isActive i = true) : g.isActive i = true := by
  induction h with
  | refl => exact hi
  | eliminate hprev hstep ih =>
      rw [(eliminated_of_eliminate (hprev.sound hg) hstep).2.isActive, Bool.and_eq_true] at hi
      exact ih hi.2
  | predictFill hprev hstep ih =>
      obtain ⟨-, -, m, rfl, -⟩ := withMarker_of_predictFill (hprev.sound hg) hstep
      exact ih hi

end Calls

/-- **Every reachable graph is sound.** -/
theorem Reachable.sound (h : Reachable g) : g.Sound := by
  obtain ⟨g₀, hbuilt, hcalls⟩ := h
  exact hcalls.sound hbuilt.fresh.sound

/-- The path `0 – 1 – 2 – 3`, as its edges make it. -/
def fourPath : EliminationGraph :=
  ⟨#[.active [1], .active [0, 2], .active [1, 3], .active [2]], 4, ⟨#[2, 3, 4, 3], 4⟩⟩

/-- The path without its second node. -/
def shortenedPath : EliminationGraph :=
  ⟨#[.active [2], .eliminated, .active [3, 0], .active [2]], 3, ⟨#[6, 3, 5, 6], 6⟩⟩

theorem built_fourPath : Built fourPath := by
  have hok : EliminationGraph.ofEdges 4 [(0, 1), (1, 2), (2, 3)] = .ok fourPath := by rfl
  exact Built.ofEdges hok

theorem calls_shortenedPath : Calls fourPath shortenedPath := by
  have helim : fourPath.eliminate 1 = .ok (1, shortenedPath) := by rfl
  exact Calls.of_eliminate helim

/-! ### Runs -/

/-- `g'` is what is left of `g` after the nodes of the list, and `k` the edges created on the way. -/
inductive Run : EliminationGraph → List Nat → Nat → EliminationGraph → Prop
  | nil (g : EliminationGraph) : Run g [] 0 g
  | cons {g g₁ g₂ : EliminationGraph} {n k : Nat} {ns : List Nat} (hn : g.isActive n = true)
      (hstep : Eliminated g n g₁) (hrest : Run g₁ ns k g₂) :
      Run g (n :: ns) (g.missing n + k) g₂

/-- **Different active nodes can be eliminated one after the other.** -/
theorem eliminateAll_ok (ns : List Nat) :
    ∀ {g : EliminationGraph}, g.Sound → ns.Nodup → (∀ n ∈ ns, g.isActive n = true) →
      ∃ k g', g.eliminateAll ns = .ok (k, g') ∧ Run g ns k g' := by
  induction ns with
  | nil =>
      intro g _ _ _
      exact ⟨0, g, rfl, Run.nil g⟩
  | cons n ns ih =>
      intro g hg hnodup hactive
      obtain ⟨hn, hnodup'⟩ := List.nodup_cons.mp hnodup
      obtain ⟨g₁, helim, hstep⟩ := eliminate_missing hg (hactive n (by simp))
      have hactive' : ∀ i ∈ ns, g₁.isActive i = true := by
        intro i hi
        have hin : i ≠ n := fun hc => hn (hc ▸ hi)
        simp [hstep.isActive, hin, hactive i (by simp [hi])]
      obtain ⟨k, g₂, hall, hrun⟩ := ih hstep.sound hnodup' hactive'
      exact ⟨_, g₂, by simp [eliminateAll, helim, hall], Run.cons (hactive n (by simp)) hstep hrun⟩

namespace Run

variable {ns : List Nat}

theorem sound (h : Run g ns k g') (hg : g.Sound) : g'.Sound := by
  induction h with
  | nil => exact hg
  | cons _ hstep _ ih => exact ih hstep.sound

theorem nnodes (h : Run g ns k g') : g'.nnodes = g.nnodes := by
  induction h with
  | nil => rfl
  | cons _ hstep _ ih => rw [ih, hstep.nnodes]

/-- The nodes of the list are gone and all others are as active as before. -/
theorem isActive_iff (h : Run g ns k g') (i : Nat) :
    g'.isActive i = true ↔ i ∉ ns ∧ g.isActive i = true := by
  induction h with
  | nil => simp
  | cons _ hstep _ ih =>
      rw [ih, hstep.isActive, List.mem_cons]
      simp only [Bool.and_eq_true, bne_iff_ne, ne_eq]
      tauto

end Run

end EliminationGraph

end EliminationOrder

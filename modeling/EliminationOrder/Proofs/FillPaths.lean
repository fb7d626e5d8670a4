/-
The fill of an order, counted on the matrix it starts from.

`fillPositions` describes the fill without eliminating anything: the pairs of positions
that are zero on both sides and that the pattern connects by a path whose interior comes
before both ends in the order.  `fillIn_eq_card` says that their number is what counting
along the elimination gives.

The induction is on the run.  The pairs an order fills are those that its first node
fills, which are the edges missing between the neighbors of that node, together with
those that the rest of the order fills in the graph that is left (`card_filled_cons`).
The two are disjoint because the first are joined from then on, and nothing that is
joined is filled again.
-/
import EliminationOrder.Proofs.FillRequest
import EliminationOrder.Proofs.Graph.EliminationPaths
import Mathlib.Data.Finset.Card

namespace EliminationOrder

variable {g g' g₁ : EliminationGraph} {n k i j : Nat} {p : List Nat}

/-! ### The order -/

/-- `x` comes before both `i` and `j` in the order `p`. -/
def PrecedesBoth (p : List Nat) (i j x : Nat) : Prop :=
  p.idxOf x < p.idxOf i ∧ p.idxOf x < p.idxOf j

theorem not_precedesBoth_left (p : List Nat) (i j : Nat) : ¬ PrecedesBoth p i j i :=
  fun h => Nat.lt_irrefl _ h.1

theorem not_precedesBoth_right (p : List Nat) (i j : Nat) : ¬ PrecedesBoth p i j j :=
  fun h => Nat.lt_irrefl _ h.2

/-- Nothing comes before the first. -/
theorem not_precedesBoth_first (h : i = n ∨ j = n) (x : Nat) : ¬ PrecedesBoth (n :: p) i j x := by
  intro hx
  obtain ⟨hi, hj⟩ := hx
  rcases h with rfl | rfl
  · simp at hi
  · simp at hj

/-- The first comes before all others. -/
theorem precedesBoth_cons (hi : i ≠ n) (hj : j ≠ n) (x : Nat) :
    PrecedesBoth (n :: p) i j x ↔ x = n ∨ PrecedesBoth p i j x := by
  unfold PrecedesBoth
  rw [List.idxOf_cons_ne _ hi.symm, List.idxOf_cons_ne _ hj.symm]
  by_cases hx : x = n
  · subst hx
    simp
  · rw [List.idxOf_cons_ne _ (fun hc => hx hc.symm)]
    simp only [hx, false_or]
    omega

/-! ### The pairs filled on a graph -/

open scoped Classical in
/-- The pairs of nodes of `p` that are not joined, but connected through earlier nodes. -/
noncomputable def filled (g : EliminationGraph) (p : List Nat) : Finset (Nat × Nat) :=
  (p.toFinset ×ˢ p.toFinset).filter fun e =>
    e.1 < e.2 ∧ ¬ g.Joined e.1 e.2 ∧ Walk g.Joined (PrecedesBoth p e.1 e.2) e.1 e.2

theorem mem_filled : (i, j) ∈ filled g p ↔
    i ∈ p ∧ j ∈ p ∧ i < j ∧ ¬ g.Joined i j ∧ Walk g.Joined (PrecedesBoth p i j) i j := by
  simp [filled, and_assoc]

/-- No pair with the first node is filled. -/
theorem ne_first_of_mem_filled (h : (i, j) ∈ filled g (n :: p)) : i ≠ n ∧ j ≠ n := by
  obtain ⟨-, -, -, hnot, hwalk⟩ := mem_filled.mp h
  constructor
  · intro hc
    exact hnot ((walk_iff_of_forall_not (not_precedesBoth_first (Or.inl hc))).mp hwalk)
  · intro hc
    exact hnot ((walk_iff_of_forall_not (not_precedesBoth_first (Or.inr hc))).mp hwalk)

/-- What the first node fills is what was missing between its neighbors. -/
theorem filled_cons (hg : g.Valid) (hstep : g.Eliminated n g₁) (hn : n ∉ p)
    (hall : ∀ x, g.isActive x = true → x ∈ n :: p) :
    filled g (n :: p)
      = EliminationGraph.unjoinedPairs g.adjacent (g.adjacent n).toFinset ∪ filled g₁ p := by
  ext ⟨i, j⟩
  rw [Finset.mem_union, EliminationGraph.mem_unjoinedPairs, List.mem_toFinset, List.mem_toFinset]
  constructor
  · intro h
    obtain ⟨hin, hjn⟩ := ne_first_of_mem_filled h
    obtain ⟨hi, hj, hlt, hnot, hwalk⟩ := mem_filled.mp h
    have hwalk₁ : Walk g₁.Joined (PrecedesBoth p i j) i j :=
      (hstep.walk_iff hg hlt.ne hin hjn).mpr
        (hwalk.imp (fun _ _ hab => hab) fun x hx => (precedesBoth_cons hin hjn x).mp hx)
    by_cases hjoined : g₁.Joined i j
    · -- Joined only now: both are neighbors of the first node.
      obtain ⟨-, -, -, hold | ⟨hni, hnj⟩⟩ := (hstep.mem_adjacent hg).mp hjoined
      · exact absurd hold hnot
      · exact Or.inl ⟨hni, hnj, hlt, hnot⟩
    · refine Or.inr (mem_filled.mpr ⟨?_, ?_, hlt, hjoined, hwalk₁⟩)
      · simpa [hin] using hi
      · simpa [hjn] using hj
  · intro h
    rcases h with ⟨hni, hnj, hlt, hnot⟩ | h
    · have hin := hg.ne_of_mem hni
      have hjn := hg.ne_of_mem hnj
      refine mem_filled.mpr ⟨hall i (hg.isActive_of_mem hni), hall j (hg.isActive_of_mem hnj),
        hlt, hnot, ?_⟩
      have hfirst : PrecedesBoth (n :: p) i j n := (precedesBoth_cons hin hjn n).mpr (Or.inl rfl)
      exact Walk.step (hg.mem_comm.mp hni) hfirst (Walk.edge hnj)
    · obtain ⟨hi, hj, hlt, hnot, hwalk⟩ := mem_filled.mp h
      have hin : i ≠ n := fun hc => hn (hc ▸ hi)
      have hjn : j ≠ n := fun hc => hn (hc ▸ hj)
      refine mem_filled.mpr ⟨by simp [hi], by simp [hj], hlt, ?_, ?_⟩
      · intro hc
        exact hnot ((hstep.mem_adjacent hg).mpr ⟨hin, hjn, hlt.ne, Or.inl hc⟩)
      · exact ((hstep.walk_iff hg hlt.ne hin hjn).mp hwalk).imp (fun _ _ hab => hab)
          fun x hx => (precedesBoth_cons hin hjn x).mpr hx

/-- **Each pair is filled once**, by the first node or by a later one. -/
theorem card_filled_cons (hg : g.Valid) (hstep : g.Eliminated n g₁) (hn : n ∉ p)
    (hall : ∀ x, g.isActive x = true → x ∈ n :: p) :
    (filled g (n :: p)).card = g.missing n + (filled g₁ p).card := by
  have hdisjoint : Disjoint
      (EliminationGraph.unjoinedPairs g.adjacent (g.adjacent n).toFinset) (filled g₁ p) := by
    rw [Finset.disjoint_left]
    rintro ⟨i, j⟩ hnew hlater
    rw [EliminationGraph.mem_unjoinedPairs, List.mem_toFinset, List.mem_toFinset] at hnew
    obtain ⟨hni, hnj, hlt, -⟩ := hnew
    obtain ⟨-, -, -, hnot, -⟩ := mem_filled.mp hlater
    exact hnot ((hstep.mem_adjacent hg).mpr
      ⟨hg.ne_of_mem hni, hg.ne_of_mem hnj, hlt.ne, Or.inr ⟨hni, hnj⟩⟩)
  rw [filled_cons hg hstep hn hall, Finset.card_union_of_disjoint hdisjoint,
    EliminationGraph.missing_eq_card hg]

/-- The edges created along a run over all active nodes are the pairs it fills. -/
theorem EliminationGraph.Run.total_eq_card (h : EliminationGraph.Run g p k g') (hg : g.Sound)
    (hp : p.Nodup) (hall : ∀ x, g.isActive x = true → x ∈ p) : k = (filled g p).card := by
  induction h with
  | nil g => simp [filled]
  | @cons g g₁ g₂ n k ns _ hstep _ ih =>
      obtain ⟨hn, hns⟩ := List.nodup_cons.mp hp
      have hall₁ : ∀ x, g₁.isActive x = true → x ∈ ns := by
        intro x hx
        rw [hstep.isActive, Bool.and_eq_true, bne_iff_ne] at hx
        simpa [hx.1] using hall x hx.2
      rw [card_filled_cons hg.valid hstep hn hall, ih hstep.sound hns hall₁]

/-! ### Counting along the elimination -/

/-- **On a graph that has lost no node, an order is eliminated and its fill counted.** -/
theorem EliminationGraph.Fresh.fillIn_ok {size : Nat} (hg : EliminationGraph.Fresh size g)
    (hp : p.Perm (List.range size)) :
    ∃ k g', g.fillIn p = .ok (k, g') ∧ g.eliminateAll p = .ok (k, g') ∧
      EliminationGraph.Run g p k g' := by
  rw [← hg.nnodes] at hp
  exact hg.sound.fillIn_ok (by rw [hg.nactive_eq, hg.nnodes]) hp

variable {α : Type} [Entry α] {a : StoredMatrix α}

/-- On the graph of a matrix, counting fill follows the run of the order. -/
theorem fillIn_of_fresh (hg : EliminationGraph.ofMatrix a = .ok g) {size : Nat}
    (hfresh : EliminationGraph.Fresh size g) (hp : p.Perm (List.range size)) :
    ∃ k g', EliminationGraph.Run g p k g' ∧ fillIn a p = .ok k := by
  obtain ⟨k, g', hfill, -, hrun⟩ := hfresh.fillIn_ok hp
  exact ⟨k, g', hrun, by simp [fillIn, hg, hfill]⟩

/-! ### The pairs filled on a matrix -/

open scoped Classical in
/--
The positions that the order `p` fills: pairs `i < j` with both entries zero, which the
symmetrised pattern connects by a path whose interior comes before `i` and `j` in `p`.
-/
noncomputable def fillPositions (a : StoredMatrix α) (p : List Nat) : Finset (Nat × Nat) :=
  (Finset.range a.nrows ×ˢ Finset.range a.nrows).filter fun e =>
    e.1 < e.2 ∧ ¬ a.Nonzero e.1 e.2 ∧ ¬ a.Nonzero e.2 e.1 ∧
      PathThrough a.Joined (PrecedesBoth p e.1 e.2) e.1 e.2

/-- On the graph of the matrix, these are the pairs that the order fills. -/
theorem filled_eq_fillPositions (hp : p.Perm (List.range a.nrows))
    (hadj : ∀ i j, j ∈ g.adjacent i ↔ a.Joined i j) : filled g p = fillPositions a p := by
  have hjoined : g.Joined = a.Joined := EliminationGraph.joined_eq_of_mem hadj
  have hmem : ∀ i, i ∈ p ↔ i < a.nrows := fun i => hp.mem_iff.trans List.mem_range
  ext ⟨i, j⟩
  simp only [mem_filled, fillPositions, Finset.mem_filter, Finset.mem_product, Finset.mem_range,
    hmem, hjoined, and_assoc]
  refine and_congr_right fun _ => and_congr_right fun _ => and_congr_right fun hlt => ?_
  rw [pathThrough_iff_walk hlt.ne (not_precedesBoth_left p i j) (not_precedesBoth_right p i j),
    StoredMatrix.Joined, not_and, not_or]
  simp [hlt.ne, and_assoc]

/--
**The fill of an order is the number of positions it fills.**  Of a square matrix and a
rearrangement of its rows, counting along the elimination answers with the number of
pairs that are zero on both sides and connected through rows that come before both.
-/
theorem fillIn_eq_card (hsquare : a.nrows = a.ncols) (hp : p.Perm (List.range a.nrows)) :
    fillIn a p = .ok (fillPositions a p).card := by
  obtain ⟨g, hg, hfresh, hadj⟩ := EliminationGraph.ofMatrix_ok hsquare
  obtain ⟨k, g', hrun, hfill⟩ := fillIn_of_fresh hg hfresh hp
  have hnodup : p.Nodup := hp.nodup_iff.mpr List.nodup_range
  rw [hfill, hrun.total_eq_card hfresh.sound hnodup (hfresh.mem_order hp),
    filled_eq_fillPositions hp hadj]

/-- Three rows, the first joined to the two others by an entry on one side only. -/
def halfStar : StoredMatrix UInt8 :=
  .dense ⟨3, 3, #[1, 0, 0, 1, 1, 0, 1, 0, 1], rfl⟩

/-- Taking the first row first fills the one pair of the others. -/
theorem fillIn_halfStar :
    halfStar.nrows = halfStar.ncols ∧ [0, 2, 1].Perm (List.range halfStar.nrows) ∧
      fillIn halfStar [0, 2, 1] = .ok (fillPositions halfStar [0, 2, 1]).card ∧
      (fillPositions halfStar [0, 2, 1]).card = 1 := by
  have hsquare : halfStar.nrows = halfStar.ncols := rfl
  have hperm : [0, 2, 1].Perm (List.range halfStar.nrows) := by decide
  have hcard := fillIn_eq_card hsquare hperm
  have hone : (fillIn halfStar [0, 2, 1]).toOption = some 1 := by decide +kernel
  rw [hcard] at hone
  exact ⟨hsquare, hperm, hcard, Option.some.inj hone⟩

end EliminationOrder

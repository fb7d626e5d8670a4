/-
The same elimination under other names.

Reordering a matrix gives its rows new names and changes nothing else, so eliminating its
rows in some order costs what eliminating the rows they come from costs.  `Relabelled f`
is the relation that carries this through a run: node `i` of one graph is node `f i` of
the other, and so are its neighbors.  Only that `f` is one to one matters.

The lists of the two graphs stand in different orders even after renaming, so the fill of a
node is compared as a count that does not depend on the order of a list.

A factorizer reorders a matrix first and then eliminates in natural order.  It meets just
the fill that was counted for the order on the matrix as it was.
-/
import EliminationOrder.Proofs.FillPaths
import EliminationOrder.Proofs.Matrix.Reorder

namespace EliminationOrder

namespace EliminationGraph

variable {f : Nat → Nat} {g h g' h' : EliminationGraph} {n : Nat}

/-! ### One elimination -/

/-- Node `i` of `g` is node `f i` of `h`, with the same neighbors in this sense. -/
structure Relabelled (f : Nat → Nat) (g h : EliminationGraph) : Prop where
  left : g.Sound
  right : h.Sound
  mem_iff : ∀ i j, j ∈ h.adjacent (f i) ↔ ∃ k ∈ g.adjacent i, f k = j

/-- How many pairs of a list are not joined does not depend on its order. -/
theorem unjoined_perm (hg : g.Valid) {l l' : List Nat} (hl : l.Nodup) (hperm : l'.Perm l) :
    unjoined g.adjacent l' = unjoined g.adjacent l := by
  rw [unjoined_eq_card (fun _ _ => hg.mem_comm) (hperm.nodup_iff.mpr hl),
    unjoined_eq_card (fun _ _ => hg.mem_comm) hl, List.toFinset_eq_of_perm _ _ hperm]

namespace Relabelled

variable (hgh : Relabelled f g h) (hf : Function.Injective f)

include hgh hf

theorem map_mem_iff {i j : Nat} : f j ∈ h.adjacent (f i) ↔ j ∈ g.adjacent i := by
  rw [hgh.mem_iff]
  constructor
  · intro hj
    obtain ⟨k, hk, heq⟩ := hj
    rwa [← hf heq]
  · intro hj
    exact ⟨j, hj, rfl⟩

theorem perm (i : Nat) : (h.adjacent (f i)).Perm ((g.adjacent i).map f) := by
  rw [List.perm_ext_iff_of_nodup (hgh.right.valid.nodup_adjacent _)
    ((hgh.left.valid.nodup_adjacent i).map hf)]
  intro j
  rw [hgh.mem_iff, List.mem_map]

theorem unjoined_map (l : List Nat) :
    unjoined h.adjacent (l.map f) = unjoined g.adjacent l := by
  induction l with
  | nil => rfl
  | cons a l ih =>
      have hfilter : (l.map f).filter (fun b => !(h.adjacent (f a)).contains b)
          = (l.filter fun b => !(g.adjacent a).contains b).map f := by
        rw [List.filter_map]
        refine congrArg _ (List.filter_congr fun b _ => ?_)
        simp [hgh.map_mem_iff hf]
      rw [List.map_cons, unjoined, unjoined, hfilter, List.length_map, ih]

/-- **A node and its new name have the same fill.** -/
theorem missing_eq (n : Nat) : h.missing (f n) = g.missing n := by
  have hnodup : ((g.adjacent n).map f).Nodup := (hgh.left.valid.nodup_adjacent n).map hf
  unfold missing
  rw [unjoined_perm hgh.right.valid hnodup (hgh.perm hf n), hgh.unjoined_map hf]

/-- **Eliminating a node here and its new name there keeps the graphs related.** -/
theorem eliminated (hg : Eliminated g n g') (hh : Eliminated h (f n) h') : Relabelled f g' h' := by
  refine ⟨hg.sound, hh.sound, ?_⟩
  intro i j
  rw [hh.mem_adjacent hgh.right.valid]
  constructor
  · intro hj
    obtain ⟨hin, hjn, hij, hold⟩ := hj
    -- Either way `j` is in a list of `h` that comes from one of `g`, so it is a new name.
    have hname : ∃ k, f k = j := by
      rcases hold with hmem | ⟨-, hmem⟩
      · obtain ⟨k, -, hk⟩ := (hgh.mem_iff i j).mp hmem
        exact ⟨k, hk⟩
      · obtain ⟨k, -, hk⟩ := (hgh.mem_iff n j).mp hmem
        exact ⟨k, hk⟩
    obtain ⟨k, rfl⟩ := hname
    rw [hf.ne_iff] at hin hjn hij
    rw [hgh.map_mem_iff hf, hgh.map_mem_iff hf, hgh.map_mem_iff hf] at hold
    exact ⟨k, (hg.mem_adjacent hgh.left.valid).mpr ⟨hin, hjn, hij, hold⟩, rfl⟩
  · intro hj
    obtain ⟨k, hk, rfl⟩ := hj
    rw [hf.ne_iff, hf.ne_iff, hf.ne_iff, hgh.map_mem_iff hf, hgh.map_mem_iff hf,
      hgh.map_mem_iff hf]
    exact (hg.mem_adjacent hgh.left.valid).mp hk

end Relabelled

/-! ### Whole runs -/

/-- **Runs under other names cost the same.** -/
theorem Run.total_eq_of_relabelled {ns : List Nat} {k : Nat} (hrun : Run g ns k g')
    (hf : Function.Injective f) :
    ∀ {h h' : EliminationGraph} {l : Nat}, Relabelled f g h → Run h (ns.map f) l h' → k = l := by
  induction hrun with
  | nil g =>
      intro h h' l _ hrun'
      cases hrun'
      rfl
  | cons _ hstep _ ih =>
      intro h h' l hgh hrun'
      cases hrun' with
      | cons _ hstep' hrest' =>
          rw [ih (hgh.eliminated hf hstep hstep') hrest', hgh.missing_eq hf]

end EliminationGraph

/-! ### Matrices -/

open EliminationGraph Permutation

variable {α : Type} [Entry α] {a b : SparseMatrix α} {p q : List Nat}

/-- The graph of a reordered matrix, under the old names, is that of the matrix. -/
theorem SparseMatrix.Reordered.relabelled (hab : a.Reordered p b) (hsquare : a.nrows = a.ncols)
    (hp : p.Perm (List.range a.nrows)) :
    ∃ g h, ofMatrix (.sparse b) = .ok g ∧ Fresh a.nrows g ∧ ofMatrix (.sparse a) = .ok h ∧
      Fresh a.nrows h ∧ Relabelled (entry p) g h := by
  have hsquare' : b.nrows = b.ncols := by rw [hab.nrows, hab.ncols, hsquare]
  obtain ⟨g, hg, hfresh, hadj⟩ := ofMatrix_ok (a := .sparse b) hsquare'
  obtain ⟨h, hh, hfresh', hadj'⟩ := ofMatrix_ok (a := .sparse a) hsquare
  rw [show (StoredMatrix.sparse b).nrows = a.nrows from hab.nrows] at hfresh
  refine ⟨g, h, hg, hfresh, hh, hfresh', hfresh.sound, hfresh'.sound, ?_⟩
  intro i j
  rw [hadj']
  constructor
  · intro hj
    have hrange : j < a.nrows := by
      rcases hj.2 with hij | hji
      · rw [hsquare]
        exact hij.2.1
      · exact hji.1
    obtain ⟨k, -, rfl⟩ := exists_entry_eq hp hrange
    exact ⟨k, (hadj i k).mpr ((hab.joined_iff hsquare hp i k).mpr hj), rfl⟩
  · intro hj
    obtain ⟨k, hk, rfl⟩ := hj
    exact (hab.joined_iff hsquare hp i k).mp ((hadj i k).mp hk)

/--
**Reordering a matrix and eliminating commute.**  A square sparse matrix can be reordered by
any order `p` of its rows, and any order `q` then costs what `p` after `q` costs on the
matrix itself: the order with `p[q[k]]` at position `k`.  In particular the natural order
of the reordered matrix costs what `p` costs.
-/
theorem fillIn_permuteSymmetric (hsquare : a.nrows = a.ncols) (hp : p.Perm (List.range a.nrows)) :
    ∃ b, a.permuteSymmetric p = .ok b ∧
      (∀ q, q.Perm (List.range a.nrows) →
        ∃ k, fillIn (.sparse b) q = .ok k ∧ fillIn (.sparse a) (after p q) = .ok k) ∧
      ∃ k, fillIn (.sparse b) (List.range a.nrows) = .ok k ∧ fillIn (.sparse a) p = .ok k := by
  obtain ⟨b, hb, hrearranged, -⟩ := SparseMatrix.permuteSymmetric_ok hsquare hp
  have hab := hrearranged.reordered hsquare hp
  have hcost : ∀ q, q.Perm (List.range a.nrows) →
      ∃ k, fillIn (.sparse b) q = .ok k ∧ fillIn (.sparse a) (after p q) = .ok k := by
    intro q hq
    obtain ⟨g, h, hg, hfresh, hh, hfresh', hgh⟩ := hab.relabelled hsquare hp
    obtain ⟨k, g', hrun, hfill⟩ := fillIn_of_fresh hg hfresh hq
    obtain ⟨l, h', hrun', hfill'⟩ := fillIn_of_fresh hh hfresh' (after_perm hp hq)
    obtain rfl := hrun.total_eq_of_relabelled (entry_injective hp) hgh hrun'
    exact ⟨k, hfill, hfill'⟩
  refine ⟨b, hb, hcost, ?_⟩
  have hnatural := hcost _ (List.Perm.refl _)
  rwa [show after p (List.range a.nrows) = p by rw [← length_eq hp, after_range]] at hnatural

/-- Three rows, the first joined to the two others by entries of its column. -/
def sparseStar : SparseMatrix UInt8 where
  nrows := 3
  columns := #[[(0, 1), (1, 1), (2, 1)], [(1, 1)], [(2, 1)]]
  rows := #[[0], [0, 1], [0, 2]]
  ascending := by decide
  inRange := by decide
  rows_eq := by decide

/-- With the first row put last, taking the last row first fills the one pair of the others. -/
theorem fillIn_permuteSymmetric_sparseStar :
    sparseStar.nrows = sparseStar.ncols ∧ [1, 2, 0].Perm (List.range sparseStar.nrows) ∧
      [2, 0, 1].Perm (List.range sparseStar.nrows) ∧
      ∃ b, sparseStar.permuteSymmetric [1, 2, 0] = .ok b ∧
        fillIn (.sparse b) [2, 0, 1] = .ok 1 ∧ fillIn (.sparse sparseStar) [0, 1, 2] = .ok 1 ∧
        fillIn (.sparse b) [0, 1, 2] = .ok 0 ∧ fillIn (.sparse sparseStar) [1, 2, 0] = .ok 0 := by
  have hsquare : sparseStar.nrows = sparseStar.ncols := rfl
  have hp : [1, 2, 0].Perm (List.range sparseStar.nrows) := by decide
  have hq : [2, 0, 1].Perm (List.range sparseStar.nrows) := by decide
  obtain ⟨b, hb, hcost, l, hnatural, hl⟩ := fillIn_permuteSymmetric hsquare hp
  obtain ⟨k, hreordered, hk⟩ := hcost _ hq
  have hone : fillIn (.sparse sparseStar) [0, 1, 2] = .ok 1 := by rfl
  have hzero : fillIn (.sparse sparseStar) [1, 2, 0] = .ok 0 := by rfl
  obtain rfl : k = 1 := Except.ok.inj (hk.symm.trans hone)
  obtain rfl : l = 0 := Except.ok.inj (hl.symm.trans hzero)
  exact ⟨hsquare, hp, hq, b, hb, hreordered, hone, hnatural, hzero⟩

end EliminationOrder

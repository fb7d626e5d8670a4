/-
The minimum fill rule fills nothing wherever that is possible.

An order fills nothing just when it is perfect: at each step the neighbors of the node are
joined to each other already, so that eliminating it takes it out and changes nothing else
(`Run.total_eq_zero_iff`).  The rule may well take other nodes than a given perfect order
does.  But that order shows that there is a node without fill, so the rule takes one too,
and the order without that node is perfect for what is left.  `GreedyRun.perfectOrder` is
the induction.

Which matrices have such an order can be told from the pattern: the chordal ones.
-/
import EliminationOrder.Ordering.Method
import EliminationOrder.Proofs.Chordal
import EliminationOrder.Proofs.FillPaths
import EliminationOrder.Proofs.Ordering.MinimumFill

namespace EliminationOrder

namespace EliminationGraph

open MinimumFill

variable {g g' g₁ : EliminationGraph} {n k u v : Nat} {p q : List Nat}

/-! ### Nodes without fill -/

/-- No edge is missing between the neighbors of a node just when it is simplicial. -/
theorem missing_eq_zero_iff (hg : g.Valid) (hall : ∀ x, g.isActive x = true → x ∈ n :: p) :
    g.missing n = 0 ↔ Simplicial g.Joined (· ∈ p) n := by
  rw [missing_eq_card hg, Finset.card_eq_zero, Finset.eq_empty_iff_forall_notMem]
  constructor
  · intro h a b _ _ hna hnb hab
    by_contra hc
    rcases Nat.lt_or_gt_of_ne hab with hlt | hlt
    · exact h (a, b) (mem_unjoinedPairs.mpr
        ⟨List.mem_toFinset.mpr hna, List.mem_toFinset.mpr hnb, hlt, hc⟩)
    · exact h (b, a) (mem_unjoinedPairs.mpr
        ⟨List.mem_toFinset.mpr hnb, List.mem_toFinset.mpr hna, hlt, fun hba => hc (hg.mem_comm.mp hba)⟩)
  · rintro h ⟨a, b⟩ hab
    obtain ⟨hna, hnb, hlt, hnot⟩ := mem_unjoinedPairs.mp hab
    rw [List.mem_toFinset] at hna hnb
    have hlater : ∀ x ∈ g.adjacent n, x ∈ p := by
      intro x hx
      simpa [hg.ne_of_mem hx] using hall x (hg.isActive_of_mem hx)
    exact hnot (h a b (hlater a hna) (hlater b hnb) hna hnb hlt.ne)

/-- Eliminating a node without fill leaves the others joined as they were. -/
theorem Eliminated.joined_iff (hstep : Eliminated g n g₁) (hg : g.Valid) (hfree : g.missing n = 0)
    (hu : u ≠ n) (hv : v ≠ n) : g₁.Joined u v ↔ g.Joined u v := by
  have hsimplicial : Simplicial g.Joined (· ∈ g.activeNodes) n :=
    (missing_eq_zero_iff hg fun x hx => List.mem_cons_of_mem n (mem_activeNodes.mpr hx)).mp hfree
  unfold Joined
  rw [hstep.mem_adjacent hg]
  constructor
  · rintro ⟨-, -, huv, hold | ⟨hnu, hnv⟩⟩
    · exact hold
    · exact hsimplicial u v (mem_activeNodes.mpr (hg.isActive_of_mem hnu))
        (mem_activeNodes.mpr (hg.isActive_of_mem hnv)) hnu hnv huv
  · intro h
    exact ⟨hu, hv, (hg.ne_of_mem h).symm, Or.inl h⟩

/-- Among the others, an order is perfect after such a step just when it was before. -/
theorem Eliminated.perfectOrder_iff (hstep : Eliminated g n g₁) (hg : g.Valid)
    (hfree : g.missing n = 0) (hn : n ∉ p) : PerfectOrder g₁.Joined p ↔ PerfectOrder g.Joined p := by
  have hsame : ∀ a ∈ p, ∀ b ∈ p, (g₁.Joined a b ↔ g.Joined a b) := by
    intro a ha b hb
    exact hstep.joined_iff hg hfree (fun hc => hn (hc ▸ ha)) (fun hc => hn (hc ▸ hb))
  constructor
  · intro h
    exact h.congr hsame
  · intro h
    exact h.congr fun a ha b hb => (hsame a ha b hb).symm

/-! ### Runs without fill -/

/-- **A run over all active nodes creates no edge just when its order is perfect.** -/
theorem Run.total_eq_zero_iff (h : Run g p k g') (hg : g.Sound) (hp : p.Nodup)
    (hall : ∀ x, g.isActive x = true → x ∈ p) : k = 0 ↔ PerfectOrder g.Joined p := by
  induction h with
  | nil g => simp [PerfectOrder]
  | @cons g g₁ g₂ n k ns _ hstep _ ih =>
      obtain ⟨hn, hns⟩ := List.nodup_cons.mp hp
      have hall₁ : ∀ x, g₁.isActive x = true → x ∈ ns := by
        intro x hx
        rw [hstep.isActive, Bool.and_eq_true, bne_iff_ne] at hx
        simpa [hx.1] using hall x hx.2
      rw [Nat.add_eq_zero_iff, PerfectOrder, ← missing_eq_zero_iff hg.valid hall,
        ih hstep.sound hns hall₁]
      exact and_congr_right fun hfree => hstep.perfectOrder_iff hg.valid hfree hn

/-- With a perfect order of the active nodes, the node of least fill has none. -/
theorem Least.missing_eq_zero (hn : Least fillCost g n) (hg : g.Valid)
    (hq : PerfectOrder g.Joined q) (hmem : ∀ x, x ∈ q ↔ g.isActive x = true) : g.missing n = 0 := by
  cases q with
  | nil => exact absurd ((hmem n).mpr hn.isActive) List.not_mem_nil
  | cons x q =>
      have hx : g.missing x = 0 := (missing_eq_zero_iff hg fun y hy => (hmem y).mpr hy).mpr hq.1
      have hle : g.missing n ≤ g.missing x := (hn.least x ((hmem x).mp List.mem_cons_self)).1
      omega

/--
A greedy rule that always takes a node without fill takes the nodes in a perfect order.
That there is such a node has to be kept up: `kept` says why there is one, and holds again
when a node without fill is eliminated.
-/
theorem GreedyRun.perfectOrder_of_kept {cost : (Nat → List Nat) → Nat → Nat}
    (kept : EliminationGraph → Prop)
    (hfree : ∀ {g : EliminationGraph} {n : Nat}, g.Valid → kept g → Least cost g n → g.missing n = 0)
    (hkept : ∀ {g g₁ : EliminationGraph} {n : Nat}, g.Valid → kept g → g.missing n = 0 →
      Eliminated g n g₁ → kept g₁)
    (h : GreedyRun cost g p g') (hg : g.Sound) (hk : kept g) : PerfectOrder g.Joined p := by
  induction h with
  | nil _ => trivial
  | @cons g g₁ g₂ n p hn hstep hrest ih =>
      have hzero := hfree hg.valid hk hn
      have hgone : n ∉ p := fun hc => by simpa [hstep.isActive] using (hrest.mem_iff n).mp hc
      have hrun : PerfectOrder g₁.Joined p := ih hstep.sound (hkept hg.valid hk hzero hstep)
      refine ⟨?_, (hstep.perfectOrder_iff hg.valid hzero hgone).mp hrun⟩
      exact (missing_eq_zero_iff hg.valid fun x hx =>
        ((GreedyRun.cons hn hstep hrest).mem_iff x).mpr hx).mp hzero

/-- **If there is a perfect order, the rule of least fill finds one.** -/
theorem GreedyRun.perfectOrder (h : GreedyRun fillCost g p g') (hg : g.Sound)
    (hq : PerfectOrder g.Joined q) (hmem : ∀ x, x ∈ q ↔ g.isActive x = true) :
    PerfectOrder g.Joined p := by
  refine h.perfectOrder_of_kept
    (fun g => ∃ q, PerfectOrder g.Joined q ∧ ∀ x, x ∈ q ↔ g.isActive x = true)
    ?_ ?_ hg ⟨q, hq, hmem⟩
  · intro g n hg hk hn
    obtain ⟨q, hq, hmem⟩ := hk
    exact hn.missing_eq_zero hg hq hmem
  · intro g g₁ n hg hk hzero hstep
    obtain ⟨q, hq, hmem⟩ := hk
    refine ⟨q.filter (· ≠ n), ?_, ?_⟩
    · exact (hstep.perfectOrder_iff hg hzero (by simp)).mpr (hq.sublist List.filter_sublist)
    · intro x
      simp [hmem, hstep.isActive, and_comm]

end EliminationGraph

open EliminationGraph

/-! ### Orders of a matrix without fill -/

section Matrix

variable {α : Type} [Entry α] {a : StoredMatrix α} {p q : List Nat}

theorem StoredMatrix.joined_symm (i j : Nat) (h : a.Joined i j) : a.Joined j i :=
  ⟨h.1.symm, h.2.symm⟩

theorem StoredMatrix.lt_of_joined (hsquare : a.nrows = a.ncols) {i j : Nat} (h : a.Joined i j) :
    i < a.nrows := by
  rcases h.2 with hij | hji
  · exact hij.1
  · rw [hsquare]
    exact hji.2.1

/-- **An order fills nothing just when it is an order of the rows, and perfect.** -/
theorem fillIn_eq_zero_iff (hsquare : a.nrows = a.ncols) :
    fillIn a p = .ok 0 ↔ p.Perm (List.range a.nrows) ∧ PerfectOrder a.Joined p := by
  obtain ⟨g, hg, hfresh, hadj⟩ := ofMatrix_ok hsquare
  have hjoined := joined_eq_of_mem hadj
  have hfull : g.nactive = g.nnodes := by rw [hfresh.nactive_eq, hfresh.nnodes]
  have hperm : Permutation.isPermutation p g.nnodes = true ↔ p.Perm (List.range a.nrows) := by
    rw [Permutation.isPermutation_iff_perm, hfresh.nnodes]
  by_cases hp : p.Perm (List.range a.nrows)
  · obtain ⟨k, g', hrun, hfill⟩ := fillIn_of_fresh hg hfresh hp
    have hnodup : p.Nodup := hp.nodup_iff.mpr List.nodup_range
    have hzero : k = 0 ↔ PerfectOrder g.Joined p :=
      hrun.total_eq_zero_iff hfresh.sound hnodup (hfresh.mem_order hp)
    rw [hfill, Except.ok.injEq, hzero, hjoined, and_iff_right hp]
  · have hrefused : Permutation.isPermutation p g.nnodes = false := by
      simpa [hp] using hperm
    simp [fillIn, hg, EliminationGraph.fillIn, hfull, hrefused, hp]

/-- There is such an order just when the pattern is chordal. -/
theorem exists_fillIn_eq_zero_iff (hsquare : a.nrows = a.ncols) :
    (∃ p, fillIn a p = .ok 0) ↔ Chordal a.Joined := by
  have hnodes : ∀ i j, a.Joined i j → i ∈ Finset.range a.nrows :=
    fun i j h => Finset.mem_range.mpr (StoredMatrix.lt_of_joined hsquare h)
  rw [chordal_iff_perfectOrder StoredMatrix.joined_symm (fun _ h => h.1 rfl) hnodes]
  refine exists_congr fun p => ?_
  rw [fillIn_eq_zero_iff hsquare, ← and_assoc]
  refine and_congr_left fun _ => ?_
  constructor
  · intro h
    refine ⟨h.nodup_iff.mpr List.nodup_range, fun x => ?_⟩
    rw [h.mem_iff, List.mem_range, Finset.mem_range]
  · intro h
    obtain ⟨hnodup, hmem⟩ := h
    rw [List.perm_ext_iff_of_nodup hnodup List.nodup_range]
    intro x
    rw [hmem, List.mem_range, Finset.mem_range]

/--
**Minimum fill is perfect wherever perfection is possible.**  If any order of a square
matrix fills nothing, neither does the one that the rule of minimum fill gives.  There is
such an order just when the symmetrised pattern is chordal.  Forests, trees among them,
and complete patterns are.
-/
theorem order_minimumFill_perfect (hsquare : a.nrows = a.ncols) :
    ∃ q, Method.greedyMinimumFill.order a = .ok q ∧
      ((∃ p, fillIn a p = .ok 0) → fillIn a q = .ok 0) ∧
      ((∃ p, fillIn a p = .ok 0) ↔ Chordal a.Joined) ∧
      (Forest a.Joined → fillIn a q = .ok 0) ∧
      ((∀ i j, i < a.nrows → j < a.nrows → i ≠ j → a.Joined i j) → fillIn a q = .ok 0) := by
  obtain ⟨g, hg, hfresh, hadj⟩ := ofMatrix_ok hsquare
  obtain ⟨q, g', horder, hgreedy⟩ := MinimumFill.order_ok hfresh.sound
  have hjoined := joined_eq_of_mem hadj
  have hperm : q.Perm (List.range a.nrows) := hgreedy.perm_range hfresh
  have hperfect : (∃ p, fillIn a p = .ok 0) → fillIn a q = .ok 0 := by
    intro h
    obtain ⟨p, hp⟩ := h
    obtain ⟨hpperm, hpperfect⟩ := (fillIn_eq_zero_iff hsquare).mp hp
    rw [fillIn_eq_zero_iff hsquare, ← hjoined]
    refine ⟨hperm, hgreedy.perfectOrder hfresh.sound (hjoined ▸ hpperfect) fun x => ?_⟩
    rw [hpperm.mem_iff, List.mem_range, hfresh.isActive, decide_eq_true_eq]
  have hchordal := exists_fillIn_eq_zero_iff hsquare
  refine ⟨q, by simp [Method.order, hg, horder], hperfect, hchordal, ?_, ?_⟩
  · intro hforest
    exact hperfect (hchordal.mpr hforest.chordal)
  · intro hcomplete
    refine (fillIn_eq_zero_iff hsquare).mpr ⟨hperm, perfectOrder_of_complete ?_⟩
    intro i hi j hj hij
    exact hcomplete i j (List.mem_range.mp (hperm.subset hi)) (List.mem_range.mp (hperm.subset hj)) hij

end Matrix

/-- A triangle with a fourth row that is joined to its first. -/
def kite : StoredMatrix UInt8 :=
  .dense ⟨4, 4, #[1, 0, 0, 0, 1, 1, 0, 0, 1, 1, 1, 0, 1, 0, 0, 1], rfl⟩

theorem forest_halfStar : Forest halfStar.Joined := by
  have hleaves : LeafOrder halfStar.Joined [1, 2, 0] := by decide +kernel
  refine hleaves.forest StoredMatrix.joined_symm fun i j h => ?_
  have hall : ∀ i < 3, i ∈ [1, 2, 0] := by decide
  exact hall i (StoredMatrix.lt_of_joined rfl h)

/-- A kite that the order by number would fill, a star, and a triangle. -/
theorem order_minimumFill_perfect_kite :
    let triangle : StoredMatrix UInt8 := .dense ⟨3, 3, #[1, 1, 1, 0, 1, 1, 0, 0, 1], rfl⟩
    (kite.nrows = kite.ncols ∧ fillIn kite [3, 0, 1, 2] = .ok 0 ∧ fillIn kite [0, 1, 2, 3] = .ok 2 ∧
      ∃ q, Method.greedyMinimumFill.order kite = .ok q ∧ fillIn kite q = .ok 0) ∧
    (halfStar.nrows = halfStar.ncols ∧ Forest halfStar.Joined ∧
      ∃ q, Method.greedyMinimumFill.order halfStar = .ok q ∧ fillIn halfStar q = .ok 0) ∧
    triangle.nrows = triangle.ncols ∧
      (∀ i j, i < triangle.nrows → j < triangle.nrows → i ≠ j → triangle.Joined i j) ∧
      ∃ q, Method.greedyMinimumFill.order triangle = .ok q ∧ fillIn triangle q = .ok 0 := by
  intro triangle
  have hfree : fillIn kite [3, 0, 1, 2] = .ok 0 := Outcome.toOption_eq_some.mp (by decide +kernel)
  have hfilled : fillIn kite [0, 1, 2, 3] = .ok 2 := Outcome.toOption_eq_some.mp (by decide +kernel)
  have hjoined : ∀ i < 3, ∀ j < 3, i ≠ j → triangle.Joined i j := by decide +kernel
  have hcomplete : ∀ i j, i < 3 → j < 3 → i ≠ j → triangle.Joined i j :=
    fun i j hi hj => hjoined i hi j hj
  obtain ⟨q₁, horder₁, hperfect, -⟩ := order_minimumFill_perfect (a := kite) rfl
  obtain ⟨q₂, horder₂, -, -, hforest, -⟩ := order_minimumFill_perfect (a := halfStar) rfl
  obtain ⟨q₃, horder₃, -, -, -, hfull⟩ := order_minimumFill_perfect (a := triangle) rfl
  exact ⟨⟨rfl, hfree, hfilled, q₁, horder₁, hperfect ⟨_, hfree⟩⟩,
    ⟨rfl, forest_halfStar, q₂, horder₂, hforest forest_halfStar⟩,
    rfl, hcomplete, q₃, horder₃, hfull hcomplete⟩

end EliminationOrder

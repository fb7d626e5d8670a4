/-
A hop ordering sorts the nodes by what is true of them.

The key of a node is the score of its distance counts.  `order_ok` has the ordering as a
sort by the scores of the searches, and a search finds the distance counts
(`hops_eq_distances`), so the keys are the true ones although all searches share a marker.

Ranks first and numbers second make a strict total order of the nodes (`before_irrefl`,
`before_asymm`, `before_of_le`).  There is one list of all nodes that is sorted by it, so
the order is determined by the keys, and nodes with equal counts come out by number.
-/
import EliminationOrder.Proofs.Ordering.HopDistances
import EliminationOrder.Proofs.Ordering.TotalOrder

namespace EliminationOrder.HopDegree

open EliminationGraph

variable {g : EliminationGraph} {k : HopDegree} {keys : Nat → Float} {p q : List Nat} {a b c n : Nat}

/-! ### Nodes by key and number -/

/-- Whether one node comes before another: by key, and by number where the keys are one. -/
def Before (keys : Nat → Float) (a b : Nat) : Prop :=
  Precedes (keys a) (keys b) ∨ keys a = keys b ∧ a < b

theorem before_iff :
    Before keys a b ↔
      rank (keys a) < rank (keys b) ∨ rank (keys a) = rank (keys b) ∧ a < b := by
  rw [Before, rank_lt_iff, rank_inj]

theorem before_irrefl : ¬ Before keys a a := by
  rw [before_iff]
  omega

theorem before_asymm (h : Before keys a b) : ¬ Before keys b a := by
  rw [before_iff] at h ⊢
  omega

/-- A key that is smaller by value comes first. -/
theorem before_of_lt (h : keys a < keys b) : Before keys a b :=
  Or.inl (precedes_of_lt h)

/-- With equal keys the lower number comes first. -/
theorem before_of_eq (hkey : keys a = keys b) (hlt : a < b) : Before keys a b :=
  Or.inr ⟨hkey, hlt⟩

/-- **All nodes are sorted in one way only.** -/
theorem eq_of_pairwise_before (hp : p.Pairwise (Before keys)) (hq : q.Pairwise (Before keys))
    (hperm : p.Perm q) : p = q :=
  hperm.eq_of_pairwise (fun _ _ _ _ hab hba => absurd hba (before_asymm hab)) hp hq

/-- What comes before in the order comes before in the list. -/
theorem idxOf_lt_of_before (hp : p.Pairwise (Before keys)) (ha : a ∈ p) (hb : b ∈ p)
    (h : Before keys a b) : p.idxOf a < p.idxOf b := by
  by_contra hc
  rcases Nat.eq_or_lt_of_le (Nat.le_of_not_lt hc) with heq | hlt
  · obtain rfl := (List.idxOf_inj hb).mp heq
    exact before_irrefl h
  · have hba := List.pairwise_iff_getElem.mp hp _ _ (List.idxOf_lt_length_of_mem hb)
      (List.idxOf_lt_length_of_mem ha) hlt
    rw [List.getElem_idxOf, List.getElem_idxOf] at hba
    exact before_asymm h hba

/-! ### The sort -/

theorem goesBefore_iff {x y : Int × Nat} :
    goesBefore x y = true ↔ x.1 < y.1 ∨ x.1 = y.1 ∧ x.2 ≤ y.2 := by
  simp only [goesBefore, Bool.or_eq_true, Bool.and_eq_true, decide_eq_true_eq, beq_iff_eq]

/-- **Sorting scored nodes sorts the nodes.** -/
theorem pairwise_sortList (hnodup : p.Nodup) :
    ((sortList goesBefore (p.map fun i => (rank (keys i), i))).map Prod.snd).Pairwise
      (Before keys) := by
  set scored := p.map fun i => (rank (keys i), i) with hscored
  have hperm : (sortList goesBefore scored).Perm scored := sortList_perm scored
  have hsorted : (sortList goesBefore scored).Pairwise fun x y => goesBefore x y = true := by
    refine sortList_pairwise ?_ ?_ scored
    · intro x y
      rw [goesBefore_iff, goesBefore_iff]
      omega
    · intro x y z hxy hyz
      rw [goesBefore_iff] at hxy hyz ⊢
      omega
  have hrank : ∀ x ∈ sortList goesBefore scored, x.1 = rank (keys x.2) := by
    intro x hx
    obtain ⟨i, -, rfl⟩ := List.mem_map.mp (hperm.mem_iff.mp hx)
    rfl
  have hnumbers : ((sortList goesBefore scored).map Prod.snd).Nodup := by
    refine (hperm.map Prod.snd).nodup_iff.mpr ?_
    rw [hscored, List.map_map]
    simpa [Function.comp_def] using hnodup
  rw [List.pairwise_map]
  refine (hsorted.and (List.pairwise_map.mp hnumbers)).imp_of_mem ?_
  rintro x y hx hy ⟨hxy, hne⟩
  rw [goesBefore_iff, hrank x hx, hrank y hy] at hxy
  rw [before_iff]
  omega

/-! ### Keys -/

/-- What a node is sorted by: the score of its distance counts. -/
noncomputable def key (k : HopDegree) (g : EliminationGraph) (i : Nat) : Float :=
  k.score (k.distances g i)

/-- Where nothing beyond the start is counted, the counts are those of a lone node. -/
theorem distances_eq_singleton (h : k.horizon (g.farthest a) = 0) : k.distances g a = [1] := by
  rw [distances, h, Nat.zero_add, List.range_one, List.map_singleton, countAt_zero]

/-- From a node without neighbors nothing is reached. -/
theorem farthest_eq_zero (hg : g.Valid) (ha : a < g.nnodes)
    (hnone : ∀ i < g.nnodes, g.adjacent i = []) : g.farthest a = 0 := by
  by_contra hc
  obtain ⟨v, hv⟩ := (exists_atDistance_iff hg ha).mpr (Nat.one_le_iff_ne_zero.mpr hc)
  obtain ⟨w, hw, hvw⟩ := hv.exists_last
  rw [hnone w (hw.walk.lt_nnodes hg ha)] at hvw
  exact List.not_mem_nil hvw

/-- All nodes in ascending order are sorted, if they have one key. -/
theorem pairwise_before_range (hkey : ∀ i < n, ∀ j < n, keys i = keys j) :
    (List.range n).Pairwise (Before keys) := by
  refine List.pairwise_lt_range.imp_of_mem ?_
  intro i j hi hj hlt
  exact before_of_eq (hkey i (List.mem_range.mp hi) j (List.mem_range.mp hj)) hlt

/--
**A hop ordering sorts the nodes by their true keys.**  For a reachable graph it is the
one list of all nodes in which the keys ascend in the total order of numbers, and nodes
with one key go by number.  So a smaller key comes before a larger one, nodes with the
same distance counts go by number, and all nodes do if no hops are looked at, or if the
graph has no edges.
-/
theorem order_sorts_by_key (hg : Reachable g) :
    ∃ p, k.order g = .ok p ∧ p.Perm (List.range g.nnodes) ∧ p.Pairwise (Before (k.key g)) ∧
      (∀ q, q.Perm (List.range g.nnodes) → q.Pairwise (Before (k.key g)) → q = p) ∧
      (∀ a < g.nnodes, ∀ b < g.nnodes, k.key g a < k.key g b → p.idxOf a < p.idxOf b) ∧
      (∀ a b, a < b → b < g.nnodes → k.distances g a = k.distances g b →
        p.idxOf a < p.idxOf b) ∧
      (k.maxHops = some 0 → p = List.range g.nnodes) ∧
      ((∀ i < g.nnodes, g.adjacent i = []) → p = List.range g.nnodes) := by
  have hvalid := hg.sound.valid
  obtain ⟨p, horder, hperm⟩ := order_perm (k := k) hvalid
  have hsorted : p.Pairwise (Before (k.key g)) := by
    have hkeys : (List.range g.nnodes).map (fun i => (rank (k.score (k.hops g i)), i))
        = (List.range g.nnodes).map fun i => (rank (k.key g i), i) := by
      refine List.map_congr_left fun i hi => ?_
      rw [hops_eq_distances hvalid (List.mem_range.mp hi), key]
    have hok := order_ok (k := k) hvalid
    rw [hkeys, horder, Except.ok.injEq] at hok
    rw [hok]
    exact pairwise_sortList List.nodup_range
  -- One key for all nodes leaves nothing but their numbers.
  have hlone : (∀ i < g.nnodes, k.horizon (g.farthest i) = 0) → p = List.range g.nnodes := by
    intro hzero
    refine eq_of_pairwise_before hsorted (pairwise_before_range ?_) hperm
    intro i hi j hj
    rw [key, key, distances_eq_singleton (hzero i hi), distances_eq_singleton (hzero j hj)]
  have hmem : ∀ i < g.nnodes, i ∈ p :=
    fun i hi => hperm.mem_iff.mpr (List.mem_range.mpr hi)
  refine ⟨p, horder, hperm, hsorted, ?_, ?_, ?_, ?_, ?_⟩
  · intro q hq hqsorted
    exact eq_of_pairwise_before hqsorted hsorted (hq.trans hperm.symm)
  · intro a ha b hb hlt
    exact idxOf_lt_of_before hsorted (hmem a ha) (hmem b hb) (before_of_lt hlt)
  · intro a b hab hb hcounts
    have hkey : k.key g a = k.key g b := by rw [key, key, hcounts]
    exact idxOf_lt_of_before hsorted (hmem a (Nat.lt_trans hab hb)) (hmem b hb)
      (before_of_eq hkey hab)
  · intro hhops
    refine hlone fun i _ => ?_
    rw [horizon, hhops]
    exact Nat.min_zero _
  · intro hnone
    refine hlone fun i hi => ?_
    rw [farthest_eq_zero hvalid hi hnone]
    exact Nat.le_zero.mp (k.horizon_le 0)

/-- Three nodes without edges. -/
def threeNodes : EliminationGraph :=
  ⟨#[.active [], .active [], .active []], 3, ⟨#[0, 0, 0], 3⟩⟩

/-- The shortened path: its gap, its two ends by number, its middle; by number without hops. -/
theorem order_sorts_by_key_shortenedPath :
    Reachable shortenedPath ∧ standard.order shortenedPath = .ok [1, 0, 3, 2] ∧
      [1, 0, 3, 2].Pairwise (Before (standard.key shortenedPath)) ∧
      standard.key shortenedPath 3 < standard.key shortenedPath 2 ∧
      [1, 0, 3, 2].idxOf 3 < [1, 0, 3, 2].idxOf 2 ∧
      standard.distances shortenedPath 0 = standard.distances shortenedPath 3 ∧
      [1, 0, 3, 2].idxOf 0 < [1, 0, 3, 2].idxOf 3 ∧
      (standard.withMaxHops 0).order shortenedPath = .ok [0, 1, 2, 3] ∧
      Reachable threeNodes ∧ (∀ i < threeNodes.nnodes, threeNodes.adjacent i = []) ∧
      standard.order threeNodes = .ok [0, 1, 2] := by
  have hreach : Reachable shortenedPath := ⟨fourPath, built_fourPath, calls_shortenedPath⟩
  have hvalid := hreach.sound.valid
  have hless : standard.key shortenedPath 3 < standard.key shortenedPath 2 := by
    rw [key, key, ← hops_eq_distances hvalid (by decide), ← hops_eq_distances hvalid (by decide)]
    decide +kernel
  have hcounts : standard.distances shortenedPath 0 = standard.distances shortenedPath 3 := by
    rw [← hops_eq_distances hvalid (by decide), ← hops_eq_distances hvalid (by decide)]
    rfl
  have hpath : standard.order shortenedPath = .ok [1, 0, 3, 2] :=
    Outcome.toOption_eq_some.mp (by decide +kernel)
  obtain ⟨p, horder, -, hsorted, -, hvalue, htie, -, -⟩ := order_sorts_by_key (k := standard) hreach
  rw [hpath, Except.ok.injEq] at horder
  subst horder
  obtain ⟨q, hbounded, -, -, -, -, -, hrange, -⟩ :=
    order_sorts_by_key (k := standard.withMaxHops 0) hreach
  rw [hrange rfl] at hbounded
  have hreach' : Reachable threeNodes := by
    have hok : ofEdges 3 [(1, 1)] = .ok threeNodes := by rfl
    exact ⟨threeNodes, Built.ofEdges hok, Calls.refl _⟩
  have hnone : ∀ i < threeNodes.nnodes, threeNodes.adjacent i = [] := by decide
  obtain ⟨r, hlone, -, -, -, -, -, -, hrange'⟩ := order_sorts_by_key (k := standard) hreach'
  rw [hrange' hnone] at hlone
  exact ⟨hreach, hpath, hsorted, hless, hvalue 3 (by decide) 2 (by decide) hless, hcounts,
    htie 0 3 (by decide) (by decide) hcounts, hbounded, hreach', hnone, hlone⟩

end EliminationOrder.HopDegree

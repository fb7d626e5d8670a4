/-
A histogram counts the nodes at each distance.

The shells that a search finds are the levels of its start: what it has seen after `d`
rounds are the nodes at distance `d` or less, and its frontier those at distance `d`
(`shells_eq`, by induction on the rounds that are left).  It stops at the first level with
no nodes, which is one past the largest distance, or where the bound on hops says so.

The marker does not come into it.  Whatever it was used for before, it answers as a new
one would, and it is in use afterwards like any other (`InUse.histogram`).
-/
import EliminationOrder.Proofs.Graph.Distance
import EliminationOrder.Proofs.Graph.Reachable
import EliminationOrder.Proofs.Ordering.HopDegree

namespace EliminationOrder

/-! ### Searches as uses of a marker -/

namespace Marker.InUse

variable {g : EliminationGraph} {k : HopDegree} {m m' : Marker} {start size : Nat}
  {sizes : List Nat}

theorem levels {rounds : Nat} {frontier : List Nat} (h : InUse size m)
    (hstep : HopDegree.levels g rounds m frontier = .ok (sizes, m')) : InUse size m' := by
  induction rounds generalizing m frontier sizes with
  | zero =>
      obtain ⟨-, rfl⟩ := Outcome.ok_pair_inj.mp hstep
      exact h
  | succ rounds ih =>
      obtain ⟨reached, -, hstep⟩ := Outcome.bind_eq_ok.mp hstep
      obtain ⟨⟨next, m₁⟩, hclaim, hstep⟩ := Outcome.bind_eq_ok.mp hstep
      have h₁ := h.claim hclaim
      dsimp only at hstep
      split at hstep
      · obtain ⟨-, rfl⟩ := Outcome.ok_pair_inj.mp hstep
        exact h₁
      · obtain ⟨⟨rest, m₂⟩, hrest, heq⟩ := Outcome.bind_eq_ok.mp hstep
        obtain ⟨-, rfl⟩ := Outcome.ok_pair_inj.mp heq
        exact ih h₁ hrest

theorem histogram (h : InUse size m) (hstep : k.histogram g start m = .ok (sizes, m')) :
    InUse size m' := by
  obtain ⟨m₁, hmark, hstep⟩ := Outcome.bind_eq_ok.mp hstep
  obtain ⟨⟨rest, m₂⟩, hlevels, heq⟩ := Outcome.bind_eq_ok.mp hstep
  obtain ⟨-, rfl⟩ := Outcome.ok_pair_inj.mp heq
  exact (h.advance.mark hmark).levels hlevels

end Marker.InUse

namespace HopDegree

open EliminationGraph

variable {g : EliminationGraph} {k : HopDegree} {start d : Nat}

/-! ### Shells are levels -/

/-- What is joined to the nodes at distance `d` and not at distance `d` or less is the next level. -/
theorem mem_next_iff {seen frontier : Finset Nat}
    (hseen : ∀ v, v ∈ seen ↔ ∃ e ≤ d, AtDistance g start e v)
    (hfrontier : ∀ v, v ∈ frontier ↔ AtDistance g start d v) (v : Nat) :
    v ∈ frontier.biUnion (neighborSet g) \ seen ↔ AtDistance g start (d + 1) v := by
  rw [Finset.mem_sdiff, Finset.mem_biUnion, hseen, atDistance_succ_iff]
  simp only [hfrontier, neighborSet, List.mem_toFinset, not_exists, not_and]

/-- **A search finds the sizes of the levels**, up to the last one or to its bound. -/
theorem shells_eq (hg : g.Valid) (hstart : start < g.nnodes) (rounds : Nat) :
    ∀ {d : Nat} {seen frontier : Finset Nat},
      (∀ v, v ∈ seen ↔ ∃ e ≤ d, AtDistance g start e v) →
      (∀ v, v ∈ frontier ↔ AtDistance g start d v) →
      shells (neighborSet g) rounds seen frontier
        = (List.range' (d + 1) (min rounds (g.farthest start - d))).map (g.countAt start) := by
  induction rounds with
  | zero =>
      intro d seen frontier _ _
      rw [Nat.zero_min]
      rfl
  | succ rounds ih =>
      intro d seen frontier hseen hfrontier
      have hnext := mem_next_iff hseen hfrontier
      rw [shells]
      set next := frontier.biUnion (neighborSet g) \ seen
      split
      · rename_i hempty
        -- No node is one farther away, so none is farther away at all.
        have hlast : g.farthest start ≤ d := by
          by_contra hc
          obtain ⟨v, hv⟩ := (exists_atDistance_iff hg hstart).mpr (Nat.lt_of_not_le hc)
          have hmem : v ∈ next := (hnext v).mpr hv
          rw [hempty] at hmem
          exact Finset.notMem_empty v hmem
        rw [Nat.sub_eq_zero_of_le hlast, Nat.min_zero]
        rfl
      · rename_i hne
        obtain ⟨v, hv⟩ := Finset.nonempty_iff_ne_empty.mpr hne
        have hmore : d + 1 ≤ g.farthest start :=
          (exists_atDistance_iff hg hstart).mp ⟨v, (hnext v).mp hv⟩
        have hseen' : ∀ v, v ∈ seen ∪ next ↔ ∃ e ≤ d + 1, AtDistance g start e v := by
          intro v
          rw [Finset.mem_union, hseen, hnext]
          constructor
          · rintro (⟨e, he, hat⟩ | hat)
            · exact ⟨e, Nat.le_succ_of_le he, hat⟩
            · exact ⟨d + 1, Nat.le_refl _, hat⟩
          · rintro ⟨e, he, hat⟩
            rcases Nat.le_succ_iff.mp he with he' | rfl
            · exact Or.inl ⟨e, he', hat⟩
            · exact Or.inr hat
        have hlen : min (rounds + 1) (g.farthest start - d)
            = min rounds (g.farthest start - (d + 1)) + 1 := by omega
        rw [ih hseen' hnext, hlen, List.range'_succ, List.map_cons, countAt_eq_card hnext]

/-! ### Histograms -/

/-- The last distance that is counted, where `far` is the largest one. -/
def horizon (k : HopDegree) (far : Nat) : Nat :=
  match k.maxHops with
  | some hops => min far hops
  | none => far

theorem horizon_le (k : HopDegree) (far : Nat) : k.horizon far ≤ far := by
  unfold horizon
  split
  · exact Nat.min_le_left _ _
  · exact Nat.le_refl _

/-- The number of nodes at each distance from `start`, as far as the ordering looks. -/
noncomputable def distances (k : HopDegree) (g : EliminationGraph) (start : Nat) : List Nat :=
  (List.range (k.horizon (g.farthest start) + 1)).map (g.countAt start)

theorem hops_eq_distances (hg : g.Valid) (hstart : start < g.nnodes) :
    k.hops g start = k.distances g start := by
  have hat : ∀ v, v ∈ ({start} : Finset Nat) ↔ AtDistance g start 0 v := by
    intro v
    rw [atDistance_zero_iff, Finset.mem_singleton]
  have hseen : ∀ v, v ∈ ({start} : Finset Nat) ↔ ∃ e ≤ 0, AtDistance g start e v := by
    intro v
    simp only [Nat.le_zero, exists_eq_left, hat]
  -- The bound by the number of nodes is none: the largest distance is smaller.
  have hrounds : min (k.rounds g) (g.farthest start - 0) = k.horizon (g.farthest start) := by
    have hlt := farthest_lt_nnodes hg hstart
    unfold rounds horizon
    cases k.maxHops with
    | some hops => dsimp only; omega
    | none => dsimp only; omega
  rw [hops, shells_eq hg hstart _ hseen hat, hrounds, distances, List.range_eq_range',
    List.range'_succ, List.map_cons, countAt_zero]

/-- No count in a histogram is zero. -/
theorem pos_of_mem_distances (hg : g.Valid) (hstart : start < g.nnodes) :
    ∀ c ∈ k.distances g start, 0 < c := by
  intro c hc
  obtain ⟨d, hd, rfl⟩ := List.mem_map.mp hc
  have hle : d ≤ k.horizon (g.farthest start) := Nat.lt_succ_iff.mp (List.mem_range.mp hd)
  exact countAt_pos hg hstart (Nat.le_trans hle (k.horizon_le _))

/-- A bound on hops cuts the list of counts short, and does nothing else to it. -/
theorem distances_prefix_distances {k' : HopDegree} (hunbounded : k'.maxHops = none) :
    k.distances g start <+: k'.distances g start := by
  have hhorizon : k'.horizon (g.farthest start) = g.farthest start := by
    rw [horizon, hunbounded]
  obtain ⟨more, hmore⟩ :=
    Nat.exists_eq_add_of_le (Nat.add_le_add_right (k.horizon_le (g.farthest start)) 1)
  rw [distances, distances, hhorizon, hmore, List.range_add (m := more)]
  exact (List.prefix_append _ _).map _

/--
**A histogram counts the nodes at each distance.**  In a reachable graph, let the farthest
node that can be reached from a start be so many edges away.  Whatever a marker has been
used for, if it has room for the nodes, then a search with it answers with the number of
nodes at distance zero, one, two and so on, up to the largest distance or up to the bound
on hops, and leaves a marker that can be used again.  No entry is zero, and a bounded
histogram is the beginning of an unbounded one.
-/
theorem histogram_counts_distances (hg : Reachable g) (hstart : start < g.nnodes) :
    IsGreatest {d | ∃ v, AtDistance g start d v} (g.farthest start) ∧
      ∀ (k : HopDegree) (size : Nat) (m : Marker), m.InUse size → g.nnodes ≤ size →
        (∃ m', k.histogram g start m = .ok (k.distances g start, m') ∧ m'.InUse size) ∧
        (∀ c ∈ k.distances g start, 0 < c) ∧
        ∀ k' : HopDegree, k'.maxHops = none →
          k.distances g start <+: k'.distances g start := by
  have hvalid := hg.sound.valid
  refine ⟨isGreatest_farthest hvalid hstart, ?_⟩
  intro k size m hm hsize
  refine ⟨?_, pos_of_mem_distances hvalid hstart, fun k' => distances_prefix_distances⟩
  obtain ⟨m', hhist, -⟩ := histogram_ok (k := k) hvalid hsize hm.ready hstart
  rw [hops_eq_distances hvalid hstart] at hhist
  exact ⟨m', hhist, hm.histogram hhist⟩

/-- A marker for six numbers, some of them marked, and some more in an earlier generation. -/
def usedMarker : Marker :=
  ⟨#[2, 0, 0, 1, 0, 2], 2⟩

theorem inUse_usedMarker : usedMarker.InUse 6 := by
  have hmark : (Marker.fresh 6).advance.mark 3 = .ok ⟨#[0, 0, 0, 1, 0, 0], 1⟩ := by rfl
  have hdedup : Marker.dedup ⟨#[0, 0, 0, 1, 0, 0], 1⟩ [0, 5, 0] = .ok ([0, 5], usedMarker) := by rfl
  exact ((Marker.InUse.fresh.advance).mark hmark).dedup hdedup

/-- From one end of the shortened path, with all hops and with one. -/
theorem histogram_counts_distances_shortenedPath :
    Reachable shortenedPath ∧ 0 < shortenedPath.nnodes ∧ usedMarker.InUse 6 ∧
      shortenedPath.nnodes ≤ 6 ∧ standard.maxHops = none ∧
      standard.distances shortenedPath 0 = [1, 1, 1] ∧
      (standard.withMaxHops 1).distances shortenedPath 0 = [1, 1] ∧
      (standard.withMaxHops 1).distances shortenedPath 0 <+: standard.distances shortenedPath 0 := by
  have hreach : Reachable shortenedPath := ⟨fourPath, built_fourPath, calls_shortenedPath⟩
  have hstart : 0 < shortenedPath.nnodes := by decide
  have hsize : shortenedPath.nnodes ≤ 6 := by decide
  obtain ⟨-, hsearch⟩ := histogram_counts_distances hreach hstart
  obtain ⟨⟨m, hall, -⟩, -⟩ := hsearch standard 6 usedMarker inUse_usedMarker hsize
  obtain ⟨⟨m', hone, -⟩, -, hprefix⟩ :=
    hsearch (standard.withMaxHops 1) 6 usedMarker inUse_usedMarker hsize
  obtain ⟨x, hall'⟩ : ∃ x, standard.histogram shortenedPath 0 usedMarker = .ok ([1, 1, 1], x) :=
    ⟨_, by rfl⟩
  obtain ⟨y, hone'⟩ :
      ∃ y, (standard.withMaxHops 1).histogram shortenedPath 0 usedMarker = .ok ([1, 1], y) :=
    ⟨_, by rfl⟩
  rw [hall] at hall'
  rw [hone] at hone'
  exact ⟨hreach, hstart, inUse_usedMarker, hsize, rfl, (Outcome.ok_pair_inj.mp hall').1,
    (Outcome.ok_pair_inj.mp hone').1, hprefix standard rfl⟩

end HopDegree

end EliminationOrder

/-
What a hop ordering computes.

A search goes outward from a node level by level, and all that its histogram says is how
large the levels are.  `shells` computes these sizes on sets: the next level is whatever
the frontier is joined to and has not been seen.  `levels_ok` shows that a search over
lists and a marker gives the same sizes, whatever marks earlier searches left and in
whatever order the lists stand, so that searches may share one marker.

From there `order_ok` gives the whole ordering in closed form: the nodes sorted by the
scores of their histograms.  A sort only rearranges, so the ordering takes every node
once, and nothing in it depends on how the scores compare.

The number of rounds is bounded by the number of nodes.  Each level that is not empty has
a node that was not seen before, so the bound never cuts a search off (`shells_add`).
-/
import EliminationOrder.Ordering.HopDegree
import EliminationOrder.Proofs.Graph.Alike
import EliminationOrder.Proofs.Sorting

namespace EliminationOrder.HopDegree

open EliminationGraph

variable {g h : EliminationGraph} {k : HopDegree} {m : Marker} {n size : Nat}

/-! ### Levels as sets -/

/-- The sizes of the levels beyond `frontier`, as far as they are not `seen`. -/
def shells (neighbors : Nat → Finset Nat) : Nat → Finset Nat → Finset Nat → List Nat
  | 0, _, _ => []
  | rounds + 1, seen, frontier =>
    let next := frontier.biUnion neighbors \ seen
    if next = ∅ then []
    else next.card :: shells neighbors rounds (seen ∪ next) next

/-- **Rounds beyond the number of nodes not seen find nothing.** -/
theorem shells_add {neighbors : Nat → Finset Nat} (hlt : ∀ u, neighbors u ⊆ Finset.range n)
    (extra : Nat) :
    ∀ (rounds : Nat) (seen frontier : Finset Nat), (Finset.range n \ seen).card ≤ rounds →
      shells neighbors (rounds + extra) seen frontier = shells neighbors rounds seen frontier := by
  have hnext : ∀ seen frontier : Finset Nat,
      frontier.biUnion neighbors \ seen ⊆ Finset.range n \ seen := by
    intro seen frontier
    exact Finset.sdiff_subset_sdiff (Finset.biUnion_subset.mpr fun u _ => hlt u) (Finset.Subset.refl _)
  intro rounds
  induction rounds with
  | zero =>
      intro seen frontier hcard
      -- Everything has been seen, so no level can be found.
      have hnone : Finset.range n \ seen = ∅ := Finset.card_eq_zero.mp (Nat.le_zero.mp hcard)
      have hempty : frontier.biUnion neighbors \ seen = ∅ :=
        Finset.subset_empty.mp (by rw [← hnone]; exact hnext seen frontier)
      cases extra with
      | zero => rfl
      | succ extra => simp only [shells, if_pos hempty]
  | succ rounds ih =>
      intro seen frontier hcard
      rw [Nat.succ_add, shells, shells]
      split
      · rfl
      · rename_i hne
        set next := frontier.biUnion neighbors \ seen
        have hpos : 0 < next.card := Finset.card_pos.mpr (Finset.nonempty_iff_ne_empty.mpr hne)
        have hsub : next ⊆ Finset.range n \ seen := hnext seen frontier
        have hsplit : Finset.range n \ (seen ∪ next) = (Finset.range n \ seen) \ next :=
          sdiff_sdiff_left.symm
        have hrest : (Finset.range n \ (seen ∪ next)).card + next.card
            = (Finset.range n \ seen).card := by
          rw [hsplit, Finset.card_sdiff_add_card_eq_card hsub]
        rw [ih _ _ (by omega)]

/-- The neighbors of a node as a set. -/
def neighborSet (g : EliminationGraph) (u : Nat) : Finset Nat :=
  (g.adjacent u).toFinset

theorem neighborSet_subset (hg : g.Valid) (u : Nat) : neighborSet g u ⊆ Finset.range g.nnodes := by
  intro v hv
  exact Finset.mem_range.mpr (hg.lt_of_mem (List.mem_toFinset.mp hv))

/-! ### Searches -/

theorem neighborsOf_eq (us : List Nat) (hus : ∀ u ∈ us, u < g.nnodes) :
    neighborsOf g us = .ok (us.flatMap g.adjacent) := by
  induction us with
  | nil => rfl
  | cons u us ih =>
      rw [neighborsOf, neighbors_eq (hus u (by simp)), Outcome.ok_bind,
        ih fun v hv => hus v (by simp [hv])]
      rfl

/-- What a level claims is the next shell. -/
theorem toFinset_claimed {seen : Finset Nat} (hseen : ∀ i, m.contains i = true ↔ i ∈ seen)
    (frontier : List Nat) :
    (((frontier.flatMap g.adjacent).filter fun i => !m.contains i).eraseDups).toFinset
      = frontier.toFinset.biUnion (neighborSet g) \ seen := by
  ext i
  have hnot : (!m.contains i) = true ↔ i ∉ seen := by
    rw [← hseen, Bool.not_eq_true', Bool.not_eq_true]
  simp only [List.mem_toFinset, List.mem_eraseDups, List.mem_filter, List.mem_flatMap, hnot,
    Finset.mem_sdiff, Finset.mem_biUnion, neighborSet]

/-- Once the reached nodes are marked, the shell has been seen too. -/
theorem contains_claimed {m' : Marker} {seen : Finset Nat} {frontier : List Nat}
    (hseen : ∀ i, m.contains i = true ↔ i ∈ seen)
    (hclaimed : ∀ i, m'.contains i = ((frontier.flatMap g.adjacent).contains i || m.contains i))
    (i : Nat) :
    m'.contains i = true ↔ i ∈ seen ∪ (frontier.toFinset.biUnion (neighborSet g) \ seen) := by
  rw [hclaimed, Bool.or_eq_true, List.contains_iff_mem, hseen, Finset.mem_union, Finset.mem_sdiff]
  simp only [List.mem_toFinset, List.mem_flatMap, Finset.mem_biUnion, neighborSet]
  by_cases hi : i ∈ seen
  · simp [hi]
  · simp [hi]

/-- **A search finds the shells**, whatever the marks of earlier searches, and with any marker
that is large enough. -/
theorem levels_ok (hg : g.Valid) (hsize : g.nnodes ≤ size) (rounds : Nat) :
    ∀ {m : Marker} {frontier : List Nat} {seen : Finset Nat}, Marker.Ready size m →
      (∀ u ∈ frontier, u < g.nnodes) → (∀ i, m.contains i = true ↔ i ∈ seen) →
      ∃ m', levels g rounds m frontier
          = .ok (shells (neighborSet g) rounds seen frontier.toFinset, m') ∧
        Marker.Ready size m' := by
  induction rounds with
  | zero =>
      intro m frontier seen hready _ _
      exact ⟨m, rfl, hready⟩
  | succ rounds ih =>
      intro m frontier seen hready hfrontier hseen
      set reached := frontier.flatMap g.adjacent
      have hlt : ∀ v ∈ reached, v < g.nnodes := by
        intro v hv
        obtain ⟨u, -, hvu⟩ := List.mem_flatMap.mp hv
        exact hg.lt_of_mem hvu
      obtain ⟨m₁, hclaim, hready₁, hc₁⟩ :=
        Marker.claim_ok reached hready fun v hv => Nat.lt_of_lt_of_le (hlt v hv) hsize
      set next := (reached.filter fun i => !m.contains i).eraseDups
      have hset : next.toFinset = frontier.toFinset.biUnion (neighborSet g) \ seen :=
        toFinset_claimed hseen frontier
      have hcard : next.length = next.toFinset.card :=
        (List.toFinset_card_of_nodup (nodup_eraseDups _)).symm
      rw [levels, neighborsOf_eq frontier hfrontier, Outcome.ok_bind, hclaim, Outcome.ok_bind,
        shells, ← hset]
      by_cases hempty : next = []
      · refine ⟨m₁, ?_, hready₁⟩
        simp [hempty]
      · have hne : next.toFinset ≠ ∅ := fun hc => hempty (List.toFinset_eq_empty_iff _ |>.mp hc)
        have hseen₁ : ∀ i, m₁.contains i = true ↔ i ∈ seen ∪ next.toFinset := by
          rw [hset]
          exact contains_claimed hseen hc₁
        have hnextlt : ∀ v ∈ next, v < g.nnodes := by
          intro v hv
          exact hlt v (List.mem_filter.mp (List.mem_eraseDups.mp hv)).1
        obtain ⟨m₂, hrest, hready₂⟩ := ih hready₁ hnextlt hseen₁
        refine ⟨m₂, ?_, hready₂⟩
        have hisEmpty : next.isEmpty = false := by simpa using hempty
        simp only [hisEmpty, Bool.false_eq_true, if_false, hrest, if_neg hne, hcard]
        rfl

/-- **The bound on rounds cuts no search off.** -/
theorem levels_map_fst_eq (hg : g.Valid) (hready : Marker.Ready g.nnodes m) {start : Nat}
    (hstart : start < g.nnodes) {rounds : Nat} (hrounds : g.nnodes ≤ rounds) :
    (levels g rounds m [start]).map Prod.fst = (levels g g.nnodes m [start]).map Prod.fst := by
  obtain ⟨extra, rfl⟩ := Nat.exists_eq_add_of_le hrounds
  set seen := (Finset.range g.nnodes).filter fun i => m.contains i = true with hdef
  have hseen : ∀ i, m.contains i = true ↔ i ∈ seen := by
    intro i
    rw [hdef, Finset.mem_filter, Finset.mem_range, iff_and_self]
    intro hi
    exact hready.lt_of_contains hi
  have hfrontier : ∀ u ∈ [start], u < g.nnodes := by simpa using hstart
  obtain ⟨m₁, h₁, -⟩ := levels_ok hg (Nat.le_refl _) (g.nnodes + extra) hready hfrontier hseen
  obtain ⟨m₂, h₂, -⟩ := levels_ok hg (Nat.le_refl _) g.nnodes hready hfrontier hseen
  have hcard : (Finset.range g.nnodes \ seen).card ≤ g.nnodes := by
    calc (Finset.range g.nnodes \ seen).card
        ≤ (Finset.range g.nnodes).card := Finset.card_le_card Finset.sdiff_subset
      _ = g.nnodes := Finset.card_range _
  rw [h₁, h₂, shells_add (neighborSet_subset hg) extra _ _ _ hcard]
  rfl

/-! ### Histograms, scores, orders -/

/-- The decay of an ordering passes its own test. -/
theorem ofDecay_decay (k : HopDegree) : ∃ k', HopDegree.ofDecay k.decay = .ok k' :=
  ⟨_, dif_pos ⟨k.decay_pos, k.decay_lt_one⟩⟩

/-- The histogram of a node, on sets. -/
def hops (k : HopDegree) (g : EliminationGraph) (start : Nat) : List Nat :=
  1 :: shells (neighborSet g) (k.rounds g) {start} {start}

theorem histogram_ok (hg : g.Valid) (hsize : g.nnodes ≤ size) (hready : Marker.Ready size m)
    {start : Nat} (hstart : start < g.nnodes) :
    ∃ m', k.histogram g start m = .ok (k.hops g start, m') ∧ Marker.Ready size m' := by
  obtain ⟨m₁, hmark, hready₁, hc₁⟩ :=
    Marker.mark_ok (Marker.advance_ready hready) (Nat.lt_of_lt_of_le hstart hsize)
  have hseen : ∀ i, m₁.contains i = true ↔ i ∈ ({start} : Finset Nat) := by
    intro i
    rw [hc₁, Marker.contains_advance hready, Bool.or_false, beq_iff_eq, Finset.mem_singleton]
  have hfrontier : ∀ u ∈ [start], u < g.nnodes := by simpa using hstart
  obtain ⟨m₂, hlevels, hready₂⟩ := levels_ok hg hsize (k.rounds g) hready₁ hfrontier hseen
  refine ⟨m₂, ?_, hready₂⟩
  rw [histogram, hmark, Outcome.ok_bind, hlevels]
  rfl

theorem scores_eq (hg : g.Valid) (is : List Nat) :
    ∀ {m : Marker}, Marker.Ready g.nnodes m → (∀ i ∈ is, i < g.nnodes) →
      k.scores g m is = .ok (is.map fun i => (rank (k.score (k.hops g i)), i)) := by
  induction is with
  | nil =>
      intro m _ _
      rfl
  | cons i is ih =>
      intro m hready hlt
      obtain ⟨m₁, hhist, hready₁⟩ := histogram_ok (k := k) hg (Nat.le_refl _) hready (hlt i (by simp))
      have hrest := ih hready₁ fun j hj => hlt j (by simp [hj])
      simp only [scores, hhist, Outcome.ok_bind, hrest]
      rfl

/-- **The ordering sorts the nodes by the scores of their histograms.** -/
theorem order_ok (hg : g.Valid) :
    k.order g = .ok ((sortList goesBefore ((List.range g.nnodes).map fun i =>
      (rank (k.score (k.hops g i)), i))).map Prod.snd) := by
  rw [order, scores_eq hg _ (Marker.fresh_ready g.nnodes) fun i hi => List.mem_range.mp hi]
  rfl

/-- **Every node is taken once**, the eliminated ones included. -/
theorem order_perm (hg : g.Valid) :
    ∃ p, k.order g = .ok p ∧ p.Perm (List.range g.nnodes) := by
  refine ⟨_, order_ok hg, ?_⟩
  refine ((sortList_perm _).map Prod.snd).trans ?_
  rw [List.map_map]
  simp [Function.comp_def]

/-- **The ordering does not depend on how the lists are ordered.** -/
theorem order_eq_of_alike (hgh : Alike g h) : k.order g = k.order h := by
  have hset : neighborSet g = neighborSet h := by
    funext u
    exact hgh.toFinset_eq u
  have hhops : k.hops g = k.hops h := by
    funext start
    rw [hops, hops, rounds, rounds, hset, hgh.nnodes]
  rw [order_ok hgh.left.valid, order_ok hgh.right.valid, hhops, hgh.nnodes]

end EliminationOrder.HopDegree

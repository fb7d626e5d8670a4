/-
The minimum degree rule as a greedy run.

The rule compares lengths of lists, so nothing has to be predicted and nothing kept.  A
round finds the node that the rule asks for (`pick?_eq`), and a run needs one round for
each active node.

`order_takes_lowestDegree` reads the rule back off the order it gave, through the graphs
that eliminating the nodes in that order passes through.
-/
import EliminationOrder.Ordering.MinimumDegree
import EliminationOrder.Proofs.Graph.Reachable
import EliminationOrder.Proofs.Ordering.Greedy

namespace EliminationOrder.MinimumDegree

open EliminationGraph

variable {g g' : EliminationGraph}

/-- The number of neighbors of a node, read off the lists. -/
def degreeCost (adjacent : Nat → List Nat) (n : Nat) : Nat :=
  (adjacent n).length

/-- As long as a node is active, a round finds the one that the rule asks for. -/
theorem pick?_eq (hg : g.Valid) (hne : g.nactive ≠ 0) :
    ∃ n, pick? g = some n ∧ Least degreeCost g n := by
  obtain ⟨n, hn, hmin, hleast⟩ := minOn?_first (f := fun i => (g.adjacent i).length)
    g.activeNodes_ascending (activeNodes_ne_nil hg hne)
  refine ⟨n, hmin, mem_activeNodes.mp hn, ?_⟩
  intro i hi
  exact hleast i (mem_activeNodes.mpr hi)

theorem run_ok (rounds : Nat) :
    ∀ {g : EliminationGraph}, g.Sound → g.nactive = rounds →
      ∃ p g', run rounds g = .ok (p, g') ∧ GreedyRun degreeCost g p g' := by
  induction rounds with
  | zero =>
      intro g hg hzero
      exact ⟨[], g, by simp [run, hzero], GreedyRun.nil (hg.valid.nactive_eq_zero_iff.mp hzero)⟩
  | succ rounds ih =>
      intro g hg hsucc
      have hne : g.nactive ≠ 0 := by omega
      obtain ⟨n, hpick, hleast⟩ := pick?_eq hg.valid hne
      obtain ⟨g₁, helim, hstep⟩ := eliminate_ok hg hleast.isActive
      have hcount : g₁.nactive = rounds := by
        have := hstep.nactive
        omega
      obtain ⟨p, g₂, hrun, hgreedy⟩ := ih hstep.sound hcount
      refine ⟨n :: p, g₂, ?_, GreedyRun.cons hleast hstep hgreedy⟩
      simp [run, hne, hpick, helim, hrun]

/-- **The run ends in a round for each active node, and follows the rule.** -/
theorem order_ok (hg : g.Sound) :
    ∃ p g', order g = .ok (p, g') ∧ GreedyRun degreeCost g p g' :=
  run_ok g.nactive hg rfl

theorem follows_degreeCost : Follows degreeCost order := fun _ => order_ok

/-- A run does nothing to a graph but eliminate. -/
theorem calls_of_run {rounds : Nat} {p : List Nat} (h : run rounds g = .ok (p, g')) :
    Calls g g' := by
  induction rounds generalizing g p with
  | zero =>
      rw [run] at h
      split at h
      · obtain ⟨-, rfl⟩ := Outcome.ok_pair_inj.mp h
        exact Calls.refl g
      · simp at h
  | succ rounds ih =>
      rw [run] at h
      split at h
      · obtain ⟨-, rfl⟩ := Outcome.ok_pair_inj.mp h
        exact Calls.refl g
      · split at h
        · exact ih h
        · obtain ⟨⟨k, g₁⟩, helim, hrest⟩ := Outcome.bind_eq_ok.mp h
          obtain ⟨⟨q, g₂⟩, hrun, heq⟩ := Outcome.bind_eq_ok.mp hrest
          obtain ⟨-, rfl⟩ := Outcome.ok_pair_inj.mp heq
          exact (Calls.of_eliminate helim).trans (ih hrun)

/-! ### The order, step by step -/

/-- An active node with the fewest neighbors, the lowest of several. -/
structure LowestDegree (g : EliminationGraph) (n : Nat) : Prop where
  isActive : g.isActive n = true
  lowest : ∃ d, g.degree n = .ok d ∧ ∀ i, g.isActive i = true →
    ∃ e, g.degree i = .ok e ∧ d ≤ e ∧ (i < n → d < e)

theorem lowestDegree_of_least {n : Nat} (h : Least degreeCost g n) : LowestDegree g n := by
  refine ⟨h.isActive, _, degree_eq (lt_of_isActive h.isActive), ?_⟩
  intro i hi
  exact ⟨_, degree_eq (lt_of_isActive hi), h.least i hi⟩

/--
**The order always goes on with a node of lowest degree.**  On every reachable graph the
rule ends, with every node that was active taken once and with nothing left.  After any
number of nodes from the front of the order have been eliminated, the next one is active
and has the fewest neighbors of all active nodes, the lowest of several.
-/
theorem order_takes_lowestDegree (hg : Reachable g) :
    ∃ p g', order g = .ok (p, g') ∧ p.Nodup ∧ (∀ i, i ∈ p ↔ g.isActive i = true) ∧
      (∀ k n, p[k]? = some n →
        ∃ total h, g.eliminateAll (p.take k) = .ok (total, h) ∧ LowestDegree h n) ∧
      g'.nactive = 0 ∧ ∀ i < g.nnodes, g'.neighbors i = .ok [] := by
  obtain ⟨p, g', horder, hgreedy⟩ := order_ok hg.sound
  have hnone := hgreedy.isActive_eq_false
  refine ⟨p, g', horder, hgreedy.nodup, hgreedy.mem_iff, ?_, ?_, ?_⟩
  · intro k n hn
    obtain ⟨hk, rfl⟩ := List.getElem?_eq_some_iff.mp hn
    have hactive : ∀ i ∈ p.take k, g.isActive i = true := by
      intro i hi
      exact (hgreedy.mem_iff i).mp (List.mem_of_mem_take hi)
    obtain ⟨total, h, hall, hrun⟩ :=
      eliminateAll_ok (p.take k) hg.sound (hgreedy.nodup.sublist (List.take_sublist k p)) hactive
    exact ⟨total, h, hall, lowestDegree_of_least (hgreedy.least_of_run rfl rfl hrun hk)⟩
  · exact (hgreedy.sound hg.sound).valid.nactive_eq_zero_iff.mpr hnone
  · intro i hi
    rw [neighbors_eq (by rw [hgreedy.nnodes]; exact hi), adjacent_eq_nil (hnone i)]

/-- On a path of four nodes that has lost its second, the rest go in order. -/
theorem order_takes_lowestDegree_shortenedPath :
    Reachable shortenedPath ∧ ∃ g', order shortenedPath = .ok ([0, 2, 3], g') ∧
      ∃ total h, shortenedPath.eliminateAll [0] = .ok (total, h) ∧ LowestDegree h 2 := by
  have hreach : Reachable shortenedPath := ⟨fourPath, built_fourPath, calls_shortenedPath⟩
  obtain ⟨p, g', horder, -, -, hlowest, -⟩ := order_takes_lowestDegree hreach
  obtain ⟨h, hrun⟩ : ∃ h, order shortenedPath = .ok ([0, 2, 3], h) := ⟨_, by rfl⟩
  rw [horder] at hrun
  obtain ⟨rfl, -⟩ := Outcome.ok_pair_inj.mp hrun
  exact ⟨hreach, g', horder, hlowest 1 2 rfl⟩

end EliminationOrder.MinimumDegree

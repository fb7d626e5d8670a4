/-
The minimum fill rule, with and without a memory.

`order` keeps its predictions from one elimination to the next.  `orderAfresh` makes
every prediction again before every choice.  Both are runs of one rule, `GreedyRun`, which
leaves nothing to choose, so they give the same order.

`round_ok` is the step: a round answers, takes the node the rule asks for, finds that it
creates what was predicted, and keeps the predictions exact.  `Visited` collects the
states in which a run begins its rounds, so that what holds in each of them is said once,
by induction over the rounds.
-/
import EliminationOrder.Proofs.Ordering.Predictions

namespace EliminationOrder.MinimumFill

open EliminationGraph

variable {g g' : EliminationGraph} {n i : Nat} {costs : Predictions}

/-! ### The rule without a memory -/

/-- The fill of every listed node, predicted one after the other. -/
def predictAll (g : EliminationGraph) : List Nat → Outcome (List (Nat × Nat) × EliminationGraph)
  | [] => .ok ([], g)
  | i :: is => do
    let (cost, g) ← g.predictFill i
    let (costs, g) ← predictAll g is
    return ((i, cost) :: costs, g)

/-- Rounds that predict the fill of every active node and eliminate the first cheapest one. -/
def runAfresh : Nat → EliminationGraph → Outcome (List Nat × EliminationGraph)
  | 0, g => if g.nactive = 0 then .ok ([], g) else .error (.fault .unfinished)
  | rounds + 1, g =>
    if g.nactive = 0 then .ok ([], g)
    else do
      let (costs, g) ← predictAll g g.activeNodes
      match costs.minOn? Prod.snd with
      | none => .error (.fault .unfinished)
      | some (n, _) =>
        let (_, g) ← g.eliminate n
        let (p, g) ← runAfresh rounds g
        return (n :: p, g)

/-- Eliminates every active node, with every prediction made again before every choice. -/
def orderAfresh (g : EliminationGraph) : Outcome (List Nat × EliminationGraph) :=
  runAfresh g.nactive g

theorem predictAll_ok (is : List Nat) :
    ∀ {g : EliminationGraph}, g.Sound → (∀ i ∈ is, g.isActive i = true) →
      ∃ m, predictAll g is = .ok (is.map fun i => (i, g.missing i), g.withMarker m) ∧
        Marker.Ready g.nnodes m := by
  induction is with
  | nil =>
      intro g hg _
      exact ⟨g.marker, rfl, hg.ready⟩
  | cons i is ih =>
      intro g hg hactive
      obtain ⟨m₁, hpredict, hready₁⟩ := predictFill_ok hg (hactive i (by simp))
      obtain ⟨m₂, hall, hready₂⟩ :=
        ih (hg.withMarker hready₁) (fun j hj => hactive j (by simp [hj]))
      refine ⟨m₂, ?_, hready₂⟩
      rw [predictAll, hpredict, Outcome.ok_bind]
      show predictAll (g.withMarker m₁) is >>= _ = _
      rw [hall]
      rfl

/-- The first cheapest of the active nodes is the one that the rule asks for. -/
theorem minOn?_activeNodes (hg : g.Valid) (hne : g.nactive ≠ 0) :
    ∃ n, (g.activeNodes.map fun i => (i, g.missing i)).minOn? Prod.snd = some (n, g.missing n) ∧
      Least fillCost g n := by
  have hsorted : (g.activeNodes.map fun i => (i, g.missing i)).Pairwise
      fun a b => a.1 < b.1 := by
    rw [List.pairwise_map]
    exact g.activeNodes_ascending
  obtain ⟨x, hx, hmin, hleast⟩ := minOn?_first (f := Prod.snd) hsorted
    (by simpa using activeNodes_ne_nil hg hne)
  obtain ⟨n, hn, rfl⟩ := List.mem_map.mp hx
  refine ⟨n, hmin, mem_activeNodes.mp hn, ?_⟩
  intro i hi
  exact hleast (i, g.missing i) (List.mem_map.mpr ⟨i, mem_activeNodes.mpr hi, rfl⟩)

/-- Without a memory, the run follows the rule and ends. -/
theorem runAfresh_ok (rounds : Nat) :
    ∀ {g : EliminationGraph}, g.Sound → g.nactive = rounds →
      ∃ p g', runAfresh rounds g = .ok (p, g') ∧ GreedyRun fillCost g p g' := by
  induction rounds with
  | zero =>
      intro g hg hzero
      exact ⟨[], g, by simp [runAfresh, hzero],
        GreedyRun.nil (hg.valid.nactive_eq_zero_iff.mp hzero)⟩
  | succ rounds ih =>
      intro g hg hsucc
      have hne : g.nactive ≠ 0 := by omega
      obtain ⟨m, hpredict, hready⟩ := predictAll_ok g.activeNodes hg
        (fun i hi => mem_activeNodes.mp hi)
      obtain ⟨n, hmin, hleast⟩ := minOn?_activeNodes hg.valid hne
      obtain ⟨g₁, helim, hstep⟩ := eliminate_missing (hg.withMarker hready) hleast.isActive
      have hcount : g₁.nactive = rounds := by
        have := hstep.nactive
        rw [nactive_withMarker] at this
        omega
      obtain ⟨p, g₂, hrun, hgreedy⟩ := ih hstep.sound hcount
      refine ⟨n :: p, g₂, ?_, GreedyRun.cons hleast hstep.of_withMarker hgreedy⟩
      simp [runAfresh, hne, hpredict, hmin, helim, hrun]

/-! ### One round with a memory -/

/-- What a round finds once the predictions are refreshed: all that the rule looks at. -/
theorem refreshed_ok (hg : g.Sound) (hc : Cached g costs) :
    ∃ costs' m, refresh g costs (List.range g.nnodes) = .ok (costs', g.withMarker m) ∧
      (g.withMarker m).Sound ∧ Cached g costs' ∧
      ∀ i, g.isActive i = true → costs'[i]? = some (some (g.missing i)) := by
  obtain ⟨costs', m, hrefresh, hready, hc', -, hfresh⟩ := refresh_ok (List.range g.nnodes) hg hc
  exact ⟨costs', m, hrefresh, hg.withMarker hready, hc',
    fun i hi => hfresh i (List.mem_range.mpr (lt_of_isActive hi)) hi⟩

/-- With a prediction for every active node, the choice is the one that the rule asks for. -/
theorem pick?_eq (hg : g.Valid) (hne : g.nactive ≠ 0)
    (hfresh : ∀ i, g.isActive i = true → costs[i]? = some (some (g.missing i))) :
    ∃ n, pick? g costs = some (n, g.missing n) ∧ Least fillCost g n := by
  have hpredicted : (g.activeNodes.filterMap fun i =>
      (costs[i]?.getD none).map fun cost => (i, cost))
        = g.activeNodes.map fun i => (i, g.missing i) := by
    rw [← List.filterMap_eq_map]
    refine List.filterMap_congr fun i hi => ?_
    simp [hfresh i (mem_activeNodes.mp hi)]
  rw [pick?, hpredicted]
  exact minOn?_activeNodes hg hne

/--
**A round takes the node of least fill and keeps the predictions exact.**  It finds a
node, and what it creates is what was predicted.
-/
theorem round_ok (hg : g.Sound) (hc : Cached g costs) (hne : g.nactive ≠ 0) :
    ∃ n g' costs', round g costs = .ok (some (n, g', costs')) ∧ Least fillCost g n ∧
      Eliminated g n g' ∧ Cached g' costs' := by
  obtain ⟨costs₁, m, hrefresh, hg₁, hc₁, hfresh⟩ := refreshed_ok hg hc
  obtain ⟨n, hpick, hleast⟩ := pick?_eq (g := g.withMarker m) hg₁.valid hne hfresh
  obtain ⟨g', helim, hmarked⟩ := eliminate_missing hg₁ hleast.isActive
  have hstep := hmarked.of_withMarker
  have hlt : ∀ x ∈ g.adjacent n, x < costs₁.size := by
    intro x hx
    rw [hc₁.size]
    exact hg.valid.lt_of_mem hx
  have hlists : ∀ x ∈ g.adjacent n, ∀ y ∈ g'.adjacent x, y < costs₁.size := by
    intro x _ y hy
    rw [hc₁.size, ← hstep.nnodes]
    exact hstep.sound.valid.lt_of_mem hy
  obtain ⟨costs₂, hforget, hsize, hleft⟩ := forgetAround_ok (g.adjacent n) hlt hlists
  refine ⟨n, g', costs₂, ?_, least_withMarker.mp hleast, hstep,
    cached_of_far hg.valid hc₁ hstep hsize hleft⟩
  simp [round, hrefresh, hpick, helim, compare, hforget]

/-! ### Whole runs -/

theorem run_ok (rounds : Nat) :
    ∀ {g : EliminationGraph} {costs : Predictions}, g.Sound → Cached g costs →
      g.nactive = rounds → ∃ p g', run rounds g costs = .ok (p, g') ∧ GreedyRun fillCost g p g' := by
  induction rounds with
  | zero =>
      intro g costs hg _ hzero
      exact ⟨[], g, by simp [run, hzero], GreedyRun.nil (hg.valid.nactive_eq_zero_iff.mp hzero)⟩
  | succ rounds ih =>
      intro g costs hg hc hsucc
      have hne : g.nactive ≠ 0 := by omega
      obtain ⟨n, g₁, costs₁, hround, hleast, hstep, hc₁⟩ := round_ok hg hc hne
      obtain ⟨p, g₂, hrun, hgreedy⟩ := ih hstep.sound hc₁ (by have := hstep.nactive; omega)
      exact ⟨n :: p, g₂, by simp [run, hne, hround, hrun], GreedyRun.cons hleast hstep hgreedy⟩

/-- **The run ends in a round for each active node, and follows the rule.** -/
theorem order_ok (hg : g.Sound) :
    ∃ p g', order g = .ok (p, g') ∧ GreedyRun fillCost g p g' :=
  run_ok g.nactive hg (cached_none g) rfl

theorem follows_fillCost : Follows fillCost order := fun _ => order_ok

theorem calls_of_refresh {costs' : Predictions} {is : List Nat}
    (h : refresh g costs is = .ok (costs', g')) : Calls g g' := by
  induction is generalizing g costs with
  | nil =>
      obtain ⟨-, rfl⟩ := Outcome.ok_pair_inj.mp h
      exact Calls.refl g
  | cons i is ih =>
      rw [refresh] at h
      split at h
      · obtain ⟨⟨cost, g₁⟩, hpredict, hrest⟩ := Outcome.bind_eq_ok.mp h
        exact (Calls.of_predictFill hpredict).trans (ih hrest)
      · exact ih h

theorem calls_of_round {costs' : Predictions} (h : round g costs = .ok (some (n, g', costs'))) :
    Calls g g' := by
  obtain ⟨⟨costs₁, g₁⟩, hrefresh, hrest⟩ := Outcome.bind_eq_ok.mp h
  dsimp only at hrest
  split at hrest
  · simp at hrest
  · obtain ⟨⟨created, g₂⟩, helim, hrest⟩ := Outcome.bind_eq_ok.mp hrest
    obtain ⟨_, -, hrest⟩ := Outcome.bind_eq_ok.mp hrest
    obtain ⟨costs₂, -, heq⟩ := Outcome.bind_eq_ok.mp hrest
    simp only [Outcome.pure_eq_ok, Except.ok.injEq, Option.some.injEq, Prod.mk.injEq] at heq
    obtain ⟨-, rfl, -⟩ := heq
    exact (calls_of_refresh hrefresh).trans (Calls.of_eliminate helim)

/-- A run does nothing to a graph but predict and eliminate. -/
theorem calls_of_run {rounds : Nat} {p : List Nat} (h : run rounds g costs = .ok (p, g')) :
    Calls g g' := by
  induction rounds generalizing g costs p with
  | zero =>
      rw [run] at h
      split at h
      · obtain ⟨-, rfl⟩ := Outcome.ok_pair_inj.mp h
        exact Calls.refl g
      · simp at h
  | succ rounds ih =>
      rw [run] at h
      split at h
      · obtain ⟨-, rfl⟩ := Outcome.ok_pair_inj.mp h
        exact Calls.refl g
      · obtain ⟨found, hround, hrest⟩ := Outcome.bind_eq_ok.mp h
        cases found with
        | none =>
            obtain ⟨-, rfl⟩ := Outcome.ok_pair_inj.mp hrest
            exact Calls.refl g
        | some found =>
            obtain ⟨n, g₁, costs₁⟩ := found
            obtain ⟨⟨q, g₂⟩, hrun, heq⟩ := Outcome.bind_eq_ok.mp hrest
            obtain ⟨-, rfl⟩ := Outcome.ok_pair_inj.mp heq
            exact (calls_of_round hround).trans (ih hrun)

/-- The graphs and predictions with which the rounds of a run from `g₀` begin. -/
inductive Visited (g₀ : EliminationGraph) : EliminationGraph → Predictions → Prop
  | start : Visited g₀ g₀ (Array.replicate g₀.nnodes none)
  | round {g g' : EliminationGraph} {costs costs' : Predictions} {n : Nat}
      (h : Visited g₀ g costs) (hne : g.nactive ≠ 0)
      (hround : round g costs = .ok (some (n, g', costs'))) : Visited g₀ g' costs'

/-- Every round begins with a sound graph and exact predictions. -/
theorem Visited.cached {g₀ : EliminationGraph} (h : Visited g₀ g costs) (hg : g₀.Sound) :
    g.Sound ∧ Cached g costs := by
  induction h with
  | start => exact ⟨hg, cached_none g₀⟩
  | round _ hne hround ih =>
      obtain ⟨hg, hc⟩ := ih
      obtain ⟨n, g', costs', hok, -, hstep, hc'⟩ := round_ok hg hc hne
      rw [hround] at hok
      simp only [Except.ok.injEq, Option.some.injEq, Prod.mk.injEq] at hok
      obtain ⟨rfl, rfl, rfl⟩ := hok
      exact ⟨hstep.sound, hc'⟩

/-- The active node whose elimination creates the fewest edges, the lowest of several. -/
structure Cheapest (g : EliminationGraph) (n cost : Nat) : Prop where
  isActive : g.isActive n = true
  predicted : ∃ g', g.predictFill n = .ok (cost, g')
  least : ∀ (i c : Nat) (g' : EliminationGraph), g.isActive i = true →
    g.predictFill i = .ok (c, g') → cost ≤ c ∧ (i < n → cost < c)

theorem cheapest_of_least (hg : g.Sound) (h : Least fillCost g n) :
    Cheapest g n (g.missing n) := by
  obtain ⟨m, hpredict, -⟩ := predictFill_ok hg h.isActive
  refine ⟨h.isActive, ⟨_, hpredict⟩, ?_⟩
  intro i c g' hi hpredict'
  obtain ⟨-, rfl, -⟩ := withMarker_of_predictFill hg hpredict'
  exact h.least i hi

/--
**The predictions that are kept are exact.**  On every reachable graph the rule with a
memory ends, and gives the order of the rule without one: every node that was active,
once, with none left.  In every round that it begins with active nodes, refreshing
predicts for each of them what eliminating it would create; a node is found, it is the
cheapest, the lowest of several, and eliminating it creates what was predicted.
-/
theorem order_eq_orderAfresh (hg : Reachable g) :
    (∃ p g' g'', order g = .ok (p, g') ∧ orderAfresh g = .ok (p, g'') ∧ p.Nodup ∧
      (∀ i, i ∈ p ↔ g.isActive i = true) ∧ (∀ i, g'.isActive i = false) ∧ g'.nactive = 0) ∧
    ∀ h costs, Visited g h costs → h.nactive ≠ 0 →
      ∃ costs' h', refresh h costs (List.range h.nnodes) = .ok (costs', h') ∧
        (∀ i, h'.isActive i = true →
          ∃ c h'', costs'[i]? = some (some c) ∧ h'.predictFill i = .ok (c, h'')) ∧
        ∃ n c h'', pick? h' costs' = some (n, c) ∧ Cheapest h' n c ∧
          h'.eliminate n = .ok (c, h'') := by
  constructor
  · obtain ⟨p, g', horder, hgreedy⟩ := order_ok hg.sound
    obtain ⟨q, g'', hafresh, hgreedy'⟩ := runAfresh_ok g.nactive hg.sound rfl
    obtain rfl : p = q := hgreedy.unique hgreedy' rfl rfl
    have hnone := hgreedy.isActive_eq_false
    exact ⟨p, g', g'', horder, hafresh, hgreedy.nodup, hgreedy.mem_iff, hnone,
      (hgreedy.sound hg.sound).valid.nactive_eq_zero_iff.mpr hnone⟩
  · intro h costs hvisited hne
    obtain ⟨hh, hc⟩ := hvisited.cached hg.sound
    obtain ⟨costs', m, hrefresh, hh', -, hfresh⟩ := refreshed_ok hh hc
    obtain ⟨n, hpick, hleast⟩ := pick?_eq (g := h.withMarker m) hh'.valid hne hfresh
    obtain ⟨h'', helim, -⟩ := eliminate_missing hh' hleast.isActive
    refine ⟨costs', _, hrefresh, ?_, n, _, h'', hpick, cheapest_of_least hh' hleast, helim⟩
    intro i hi
    obtain ⟨m', hpredict, -⟩ := predictFill_ok hh' hi
    exact ⟨_, _, hfresh i hi, hpredict⟩

/-- On a path of four nodes that has lost its second, both rules take the rest in order. -/
theorem order_shortenedPath :
    Reachable shortenedPath ∧ ∃ g' g'', order shortenedPath = .ok ([0, 2, 3], g') ∧
      orderAfresh shortenedPath = .ok ([0, 2, 3], g'') := by
  have hreach : Reachable shortenedPath := ⟨fourPath, built_fourPath, calls_shortenedPath⟩
  obtain ⟨⟨p, g', g'', horder, hafresh, -⟩, -⟩ := order_eq_orderAfresh hreach
  obtain ⟨h, hrun⟩ : ∃ h, order shortenedPath = .ok ([0, 2, 3], h) := ⟨_, by rfl⟩
  rw [horder] at hrun
  obtain ⟨rfl, -⟩ := Outcome.ok_pair_inj.mp hrun
  exact ⟨hreach, g', g'', horder, hafresh⟩

end EliminationOrder.MinimumFill

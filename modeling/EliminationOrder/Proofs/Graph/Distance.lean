/-
Distances in an elimination graph.

`Hops g u d v` is a walk of exactly `d` edges from `u` to `v`, and `v` is at distance `d`
when no walk to it is shorter.  Every node that is reached at all has one distance
(`Hops.exists_atDistance`, `AtDistance.unique`).

What a search by levels needs is `atDistance_succ_iff`: the nodes at the next distance are
the neighbors of those at this one that are not at this distance or a smaller one.  So no
distance is left out on the way to a larger one (`AtDistance.exists_of_le`), which bounds
distances by the number of nodes, and makes `farthest` the largest one that occurs.
-/
import EliminationOrder.Proofs.Graph.Sound
import Mathlib.Data.Set.Card
import Mathlib.Order.Lattice.Nat

namespace EliminationOrder.EliminationGraph

variable {g : EliminationGraph} {u v w d e : Nat}

/-! ### Walks that count their edges -/

/-- A walk of `d` edges leads from `u` to `v`. -/
inductive Hops (g : EliminationGraph) (u : Nat) : Nat → Nat → Prop
  | here : Hops g u 0 u
  | onward {d w v : Nat} (h : Hops g u d w) (hv : v ∈ g.adjacent w) : Hops g u (d + 1) v

/-- A walk from a node stays on nodes. -/
theorem Hops.lt_nnodes (h : Hops g u d v) (hg : g.Valid) (hu : u < g.nnodes) : v < g.nnodes := by
  cases h with
  | here => exact hu
  | onward _ hv => exact hg.lt_of_mem hv

/-- The shortest walks from `u` to `v` have `d` edges. -/
structure AtDistance (g : EliminationGraph) (u d v : Nat) : Prop where
  walk : Hops g u d v
  shortest : ∀ e, Hops g u e v → d ≤ e

theorem AtDistance.unique (hd : AtDistance g u d v) (he : AtDistance g u e v) : d = e :=
  Nat.le_antisymm (hd.shortest e he.walk) (he.shortest d hd.walk)

/-- **What is reached has a distance**, and it is no larger than the walk is long. -/
theorem Hops.exists_atDistance (h : Hops g u e v) : ∃ d ≤ e, AtDistance g u d v := by
  classical
  have hex : ∃ d, Hops g u d v := ⟨e, h⟩
  exact ⟨Nat.find hex, Nat.find_min' hex h, Nat.find_spec hex, fun _ h' => Nat.find_min' hex h'⟩

/-! ### One distance after the other -/

theorem atDistance_zero_iff : AtDistance g u 0 v ↔ v = u := by
  constructor
  · intro h
    cases h.walk with
    | here => rfl
  · rintro rfl
    exact ⟨Hops.here, fun _ _ => Nat.zero_le _⟩

/-- The last edge of a shortest walk leads on from a shortest walk. -/
theorem AtDistance.exists_last (h : AtDistance g u (d + 1) v) :
    ∃ w, AtDistance g u d w ∧ v ∈ g.adjacent w := by
  cases h.walk with
  | @onward _ w _ hwalk hv =>
      refine ⟨w, ⟨hwalk, ?_⟩, hv⟩
      intro e he
      have hle : d + 1 ≤ e + 1 := h.shortest _ (Hops.onward he hv)
      omega

/-- **The next level**: the neighbors of this one that are in no level so far. -/
theorem atDistance_succ_iff :
    AtDistance g u (d + 1) v ↔
      (∃ w, AtDistance g u d w ∧ v ∈ g.adjacent w) ∧ ∀ e ≤ d, ¬ AtDistance g u e v := by
  constructor
  · intro h
    refine ⟨h.exists_last, ?_⟩
    intro e he hc
    have : d + 1 = e := h.unique hc
    omega
  · rintro ⟨⟨w, hw, hv⟩, hnew⟩
    refine ⟨Hops.onward hw.walk hv, ?_⟩
    intro e he
    obtain ⟨e', hle, hat⟩ := he.exists_atDistance
    by_contra hc
    exact hnew e' (by omega) hat

/-- **Every smaller distance occurs too.** -/
theorem AtDistance.exists_of_le (h : AtDistance g u d v) (hle : e ≤ d) :
    ∃ w, AtDistance g u e w := by
  induction d generalizing v with
  | zero =>
      obtain rfl := Nat.le_zero.mp hle
      exact ⟨v, h⟩
  | succ d ih =>
      rcases Nat.le_succ_iff.mp hle with hle' | rfl
      · obtain ⟨w, hw, -⟩ := h.exists_last
        exact ih hw hle'
      · exact ⟨v, h⟩

/-- **There are fewer distances than nodes**: each that occurs has a node of its own. -/
theorem AtDistance.lt_nnodes (h : AtDistance g u d v) (hg : g.Valid) (hu : u < g.nnodes) :
    d < g.nnodes := by
  have hex : ∀ e, ∃ w, e ≤ d → AtDistance g u e w := by
    intro e
    by_cases he : e ≤ d
    · obtain ⟨w, hw⟩ := h.exists_of_le he
      exact ⟨w, fun _ => hw⟩
    · exact ⟨u, fun hc => absurd hc he⟩
  choose node hnode using hex
  have hat : ∀ e ∈ Finset.range (d + 1), AtDistance g u e (node e) := by
    intro e he
    exact hnode e (Nat.lt_succ_iff.mp (Finset.mem_range.mp he))
  have hcard : (Finset.range (d + 1)).card ≤ (Finset.range g.nnodes).card := by
    refine Finset.card_le_card_of_injOn node ?_ ?_
    · intro e he
      exact Finset.mem_coe.mpr (Finset.mem_range.mpr ((hat e he).walk.lt_nnodes hg hu))
    · intro e he e' he' heq
      have hat' : AtDistance g u e' (node e) := by rw [heq]; exact hat e' he'
      exact (hat e he).unique hat'
  simpa using hcard

/-! ### The farthest nodes, and how many are how far -/

/-- The largest distance from `u` that occurs. -/
noncomputable def farthest (g : EliminationGraph) (u : Nat) : Nat :=
  sSup {d | ∃ v, AtDistance g u d v}

theorem isGreatest_farthest (hg : g.Valid) (hu : u < g.nnodes) :
    IsGreatest {d | ∃ v, AtDistance g u d v} (g.farthest u) := by
  have hbdd : BddAbove {d | ∃ v, AtDistance g u d v} := by
    refine ⟨g.nnodes, ?_⟩
    rintro d ⟨v, hv⟩
    exact Nat.le_of_lt (hv.lt_nnodes hg hu)
  have hne : {d | ∃ v, AtDistance g u d v}.Nonempty := ⟨0, u, atDistance_zero_iff.mpr rfl⟩
  exact ⟨Nat.sSup_mem hne hbdd, fun d hd => le_csSup hbdd hd⟩

/-- The distances that occur are those up to the largest. -/
theorem exists_atDistance_iff (hg : g.Valid) (hu : u < g.nnodes) :
    (∃ v, AtDistance g u d v) ↔ d ≤ g.farthest u := by
  obtain ⟨⟨v, hv⟩, hupper⟩ := isGreatest_farthest hg hu
  exact ⟨fun h => hupper h, fun h => hv.exists_of_le h⟩

theorem farthest_lt_nnodes (hg : g.Valid) (hu : u < g.nnodes) : g.farthest u < g.nnodes := by
  obtain ⟨v, hv⟩ := (exists_atDistance_iff hg hu).mpr (Nat.le_refl (g.farthest u))
  exact hv.lt_nnodes hg hu

/-- The number of nodes at distance `d` from `u`. -/
noncomputable def countAt (g : EliminationGraph) (u d : Nat) : Nat :=
  {v | AtDistance g u d v}.ncard

theorem countAt_eq_card {level : Finset Nat} (h : ∀ v, v ∈ level ↔ AtDistance g u d v) :
    g.countAt u d = level.card := by
  have hset : {v | AtDistance g u d v} = (level : Set Nat) := Set.ext fun v => (h v).symm
  rw [countAt, hset, Set.ncard_coe_finset]

theorem countAt_zero : g.countAt u 0 = 1 := by
  have hlevel : ∀ v, v ∈ ({u} : Finset Nat) ↔ AtDistance g u 0 v := by
    intro v
    rw [atDistance_zero_iff, Finset.mem_singleton]
  rw [countAt_eq_card hlevel, Finset.card_singleton]

/-- Up to the largest distance, no count is zero. -/
theorem countAt_pos (hg : g.Valid) (hu : u < g.nnodes) (hd : d ≤ g.farthest u) :
    0 < g.countAt u d := by
  obtain ⟨v, hv⟩ := (exists_atDistance_iff hg hu).mpr hd
  have hfinite : {v | AtDistance g u d v}.Finite := by
    refine (Set.finite_lt_nat g.nnodes).subset ?_
    intro w hw
    exact hw.walk.lt_nnodes hg hu
  exact (Set.ncard_pos hfinite).mpr ⟨v, hv⟩

end EliminationOrder.EliminationGraph

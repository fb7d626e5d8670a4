/-
Components do not influence each other.

Take a set of active nodes that no edge leaves.  Nothing that is eliminated outside it
reaches in: the lists of its nodes stay as they are, entry for entry, and so do their
degrees and fills.  A greedy rule that runs over the whole graph therefore deals with the
set as if it were alone, between nodes of the rest.

The comparison is of two runs of different lengths.  `Within` relates the whole graph to
one where only the nodes of the set are left.  When the long run takes a node outside the
set, the short one stands still, and `Within` survives that (`Within.outside`).  When the
long run takes a node of the set, it is the first cheapest of all active nodes, hence the
first cheapest of those in the set, and the short run takes it too (`Within.least`,
`Within.inside`).  `GreedyRun.filter_eq` is the induction over the long run.
-/
import EliminationOrder.Proofs.Ordering.MinimumDegree
import EliminationOrder.Proofs.Ordering.MinimumFill
import Mathlib.Data.Finset.Basic

namespace EliminationOrder.EliminationGraph

variable {g g' h h' : EliminationGraph} {n i k : Nat} {s p q : List Nat} {nodes : Finset Nat}
  {cost : (Nat → List Nat) → Nat → Nat}

/-! ### Sets that no edge leaves -/

/-- No node of the set is joined to one outside. -/
def Detached (nodes : Finset Nat) (g : EliminationGraph) : Prop :=
  ∀ i ∈ nodes, ∀ j ∈ g.adjacent i, j ∈ nodes

/-- A node outside is no neighbor of one inside. -/
theorem Detached.not_mem_adjacent (hd : Detached nodes g) (hg : g.Valid) (hn : n ∉ nodes)
    (hi : i ∈ nodes) : i ∉ g.adjacent n :=
  fun hc => hn (hd i hi n (hg.mem_comm.mp hc))

/-- **No elimination makes an edge that leaves the set.**  The neighbors that are joined to
each other are all inside or all outside, as their common neighbor is. -/
theorem Detached.eliminated (hd : Detached nodes g) (hg : g.Valid) (hstep : Eliminated g n g') :
    Detached nodes g' := by
  intro i hi j hj
  obtain ⟨-, -, -, hold | ⟨hni, hnj⟩⟩ := (hstep.mem_adjacent hg).mp hj
  · exact hd i hi j hold
  · have hn : n ∈ nodes := hd i hi n (hg.mem_comm.mp hni)
    exact hd n hn j hnj

/-- Eliminating a node outside rewrites no list inside. -/
theorem Eliminated.adjacent_of_detached (hstep : Eliminated g n g') (hg : g.Valid)
    (hd : Detached nodes g) (hn : n ∉ nodes) (hi : i ∈ nodes) : g'.adjacent i = g.adjacent i := by
  have hin : i ≠ n := fun hc => hn (hc ▸ hi)
  rw [hstep.adjacent]
  unfold listAfter
  rw [if_neg hin, if_neg (hd.not_mem_adjacent hg hn hi)]

/-! ### A graph and what of it lies in the set -/

/-- `h` has the nodes of `g` that are in the set, with the lists they have in `g`. -/
structure Within (nodes : Finset Nat) (g h : EliminationGraph) : Prop where
  isActive : ∀ i, h.isActive i = true ↔ i ∈ nodes ∧ g.isActive i = true
  adjacent : ∀ i ∈ nodes, h.adjacent i = g.adjacent i

/-- **A step outside the set leaves what lies in it.** -/
theorem Within.outside (hw : Within nodes g h) (hg : g.Valid) (hd : Detached nodes g)
    (hstep : Eliminated g n g') (hn : n ∉ nodes) : Within nodes g' h where
  isActive i := by
    rw [hw.isActive, hstep.isActive, Bool.and_eq_true, bne_iff_ne]
    constructor
    · rintro ⟨hi, hactive⟩
      exact ⟨hi, fun hc => hn (hc ▸ hi), hactive⟩
    · rintro ⟨hi, -, hactive⟩
      exact ⟨hi, hactive⟩
  adjacent i hi := by rw [hw.adjacent i hi, hstep.adjacent_of_detached hg hd hn hi]

/-- A step inside the set can be taken in both graphs. -/
theorem Within.inside (hw : Within nodes g h) (hstep : Eliminated g n g')
    (hstep' : Eliminated h n h') (hn : n ∈ nodes) : Within nodes g' h' where
  isActive i := by
    rw [hstep'.isActive, hstep.isActive, Bool.and_eq_true, Bool.and_eq_true, hw.isActive]
    exact and_left_comm
  adjacent i hi := by
    rw [hstep'.adjacent, hstep.adjacent]
    unfold listAfter
    rw [hw.adjacent n hn, hw.adjacent i hi]

/-! ### Greedy runs -/

/-- A cost that depends on the list of its node and the lists of its neighbors only. -/
def Local (cost : (Nat → List Nat) → Nat → Nat) : Prop :=
  ∀ {adjacent adjacent' : Nat → List Nat} {i : Nat}, adjacent' i = adjacent i →
    (∀ j ∈ adjacent i, adjacent' j = adjacent j) → cost adjacent' i = cost adjacent i

theorem Within.cost_eq (hw : Within nodes g h) (hcost : Local cost) (hd : Detached nodes g)
    (hi : i ∈ nodes) : cost h.adjacent i = cost g.adjacent i :=
  hcost (hw.adjacent i hi) fun j hj => hw.adjacent j (hd i hi j hj)

/-- A node of the set that is least in the whole graph is least in the set. -/
theorem Within.least (hw : Within nodes g h) (hcost : Local cost) (hd : Detached nodes g)
    (hleast : Least cost g n) (hn : n ∈ nodes) : Least cost h n := by
  refine ⟨(hw.isActive n).mpr ⟨hn, hleast.isActive⟩, ?_⟩
  intro i hi
  obtain ⟨hmem, hactive⟩ := (hw.isActive i).mp hi
  rw [hw.cost_eq hcost hd hn, hw.cost_eq hcost hd hmem]
  exact hleast.least i hactive

/-- **A rule with a local cost takes the nodes of the set as if they were alone.** -/
theorem GreedyRun.filter_eq (hcost : Local cost) (hrun : GreedyRun cost g p g')
    (hrun' : GreedyRun cost h q h') (hg : g.Sound) (hd : Detached nodes g)
    (hw : Within nodes g h) : q = p.filter (· ∈ nodes) := by
  induction hrun generalizing h q with
  | nil hnone =>
      cases hrun' with
      | nil _ => rfl
      | cons hm _ _ =>
          have hactive := ((hw.isActive _).mp hm.isActive).2
          rw [hnone] at hactive
          exact Bool.noConfusion hactive
  | @cons g g₁ _ n p hleast hstep _ ih =>
      have hd₁ := hd.eliminated hg.valid hstep
      by_cases hn : n ∈ nodes
      · rw [List.filter_cons_of_pos (by simpa using hn)]
        have hleast' := hw.least hcost hd hleast hn
        cases hrun' with
        | nil hnone =>
            have hactive := hleast'.isActive
            rw [hnone] at hactive
            exact Bool.noConfusion hactive
        | cons hm hstep' hrest' =>
            obtain rfl := hleast'.unique hm
            rw [ih hrest' hstep.sound hd₁ (hw.inside hstep hstep' hn)]
      · rw [List.filter_cons_of_neg (by simpa using hn)]
        exact ih hrun' hstep.sound hd₁ (hw.outside hg.valid hd hstep hn)

/-- A run outside the set rewrites no list inside. -/
theorem Run.adjacent_of_detached (hrun : Run g s k g') (hg : g.Sound) (hd : Detached nodes g)
    (hout : ∀ n ∈ s, n ∉ nodes) (hi : i ∈ nodes) : g'.adjacent i = g.adjacent i := by
  induction hrun with
  | nil g => rfl
  | @cons g g₁ _ n _ _ _ hstep _ ih =>
      have hn : n ∉ nodes := hout n (by simp)
      rw [ih hstep.sound (hd.eliminated hg.valid hstep) fun m hm => hout m (by simp [hm]),
        hstep.adjacent_of_detached hg.valid hd hn hi]

/-- Eliminating everything outside the set, in any order, leaves what lies in it. -/
theorem Run.within (hrun : Run g s k g') (hg : g.Sound) (hd : Detached nodes g)
    (hout : ∀ n ∈ s, n ∉ nodes) (hall : ∀ i, g.isActive i = true → i ∉ nodes → i ∈ s) :
    Within nodes g g' where
  isActive i := by
    rw [hrun.isActive_iff i]
    constructor
    · rintro ⟨his, hactive⟩
      exact ⟨by_contra fun hi => his (hall i hactive hi), hactive⟩
    · rintro ⟨hi, hactive⟩
      exact ⟨fun hc => hout i hc hi, hactive⟩
  adjacent _ hi := hrun.adjacent_of_detached hg hd hout hi

/-- What a rule with a local cost makes of the set alone is what it takes from it anyway. -/
theorem Follows.order_within {order : EliminationGraph → Outcome (List Nat × EliminationGraph)}
    (hrule : Follows cost order) (hlocal : Local cost) (hg : g.Sound) (hh : h.Sound)
    (hd : Detached nodes g) (hw : Within nodes g h) :
    ∃ p g' h', order g = .ok (p, g') ∧ order h = .ok (p.filter (· ∈ nodes), h') := by
  obtain ⟨p, g', horder, hrun⟩ := hrule g hg
  obtain ⟨q, h', horder', hrun'⟩ := hrule h hh
  obtain rfl := hrun.filter_eq hlocal hrun' hg hd hw
  exact ⟨p, g', h', horder, horder'⟩

/-! ### The two rules -/

theorem local_degreeCost : Local MinimumDegree.degreeCost := by
  intro adjacent adjacent' i hi _
  unfold MinimumDegree.degreeCost
  rw [hi]

theorem local_fillCost : Local MinimumFill.fillCost := by
  intro adjacent adjacent' i hi hnear
  unfold MinimumFill.fillCost
  rw [hi]
  exact MinimumFill.unjoined_congr _ hnear

/--
**Components do not influence each other.**  Let no edge of a reachable graph join a set
of active nodes to the other active nodes, and let all of the others be eliminated, in any
order.  What the minimum degree rule makes of the graph that is left is its order of the
whole graph, restricted to the set, and the same holds of the minimum fill rule.
-/
theorem order_of_component (hg : Reachable g) (hnodes : ∀ i ∈ nodes, g.isActive i = true)
    (hapart : ∀ i ∈ nodes, ∀ j, g.isActive j = true → j ∉ nodes → j ∉ g.adjacent i)
    (hs : s.Nodup) (hrest : ∀ i, i ∈ s ↔ g.isActive i = true ∧ i ∉ nodes) :
    ∃ k h, g.eliminateAll s = .ok (k, h) ∧ (∀ i, h.isActive i = true ↔ i ∈ nodes) ∧
      (∃ p g' h', MinimumDegree.order g = .ok (p, g') ∧
        MinimumDegree.order h = .ok (p.filter (· ∈ nodes), h')) ∧
      ∃ p g' h', MinimumFill.order g = .ok (p, g') ∧
        MinimumFill.order h = .ok (p.filter (· ∈ nodes), h') := by
  have hsound := hg.sound
  have hd : Detached nodes g := by
    intro i hi j hj
    exact by_contra fun hc => hapart i hi j (hsound.valid.isActive_of_mem hj) hc hj
  obtain ⟨k, h, hall, hrun⟩ := eliminateAll_ok s hsound hs fun n hn => ((hrest n).mp hn).1
  have hw : Within nodes g h := hrun.within hsound hd (fun n hn => ((hrest n).mp hn).2)
    fun i hactive hi => (hrest i).mpr ⟨hactive, hi⟩
  refine ⟨k, h, hall, ?_, ?_, ?_⟩
  · intro i
    rw [hw.isActive, and_iff_left_iff_imp]
    exact hnodes i
  · exact MinimumDegree.follows_degreeCost.order_within local_degreeCost hsound
      (hrun.sound hsound) hd hw
  · exact MinimumFill.follows_fillCost.order_within local_fillCost hsound (hrun.sound hsound) hd hw

/-- The paths `0 – 2 – 4` and `1 – 3`, as their edges make them. -/
def twoPaths : EliminationGraph :=
  ⟨#[.active [2], .active [3], .active [0, 4], .active [1], .active [2]], 5, ⟨#[3, 4, 5, 2, 3], 5⟩⟩

/-- The rules go back and forth between the two paths, and take the longer one in its own order. -/
theorem order_of_component_twoPaths :
    Reachable twoPaths ∧ (∀ i ∈ ({0, 2, 4} : Finset Nat), twoPaths.isActive i = true) ∧
      (∀ i ∈ ({0, 2, 4} : Finset Nat), ∀ j, twoPaths.isActive j = true →
        j ∉ ({0, 2, 4} : Finset Nat) → j ∉ twoPaths.adjacent i) ∧
      [3, 1].Nodup ∧
      (∀ i, i ∈ [3, 1] ↔ twoPaths.isActive i = true ∧ i ∉ ({0, 2, 4} : Finset Nat)) ∧
      ∃ k h g' h' h'', twoPaths.eliminateAll [3, 1] = .ok (k, h) ∧
        MinimumDegree.order twoPaths = .ok ([0, 1, 3, 2, 4], g') ∧
        MinimumDegree.order h = .ok ([0, 2, 4], h') ∧ MinimumFill.order h = .ok ([0, 2, 4], h'') := by
  have hbuilt : Built twoPaths := by
    have hok : ofEdges 5 [(0, 2), (2, 4), (1, 3)] = .ok twoPaths := by rfl
    exact Built.ofEdges hok
  have hreach : Reachable twoPaths := ⟨twoPaths, hbuilt, Calls.refl _⟩
  have hnodes : ∀ i ∈ ({0, 2, 4} : Finset Nat), twoPaths.isActive i = true := by decide
  have hlists : ∀ i ∈ ({0, 2, 4} : Finset Nat), ∀ j ∈ twoPaths.adjacent i,
      j ∈ ({0, 2, 4} : Finset Nat) := by decide
  have hapart : ∀ i ∈ ({0, 2, 4} : Finset Nat), ∀ j, twoPaths.isActive j = true →
      j ∉ ({0, 2, 4} : Finset Nat) → j ∉ twoPaths.adjacent i :=
    fun i hi j _ hj hc => hj (hlists i hi j hc)
  have hnodup : [3, 1].Nodup := by decide
  have hrest : ∀ i, i ∈ [3, 1] ↔ twoPaths.isActive i = true ∧ i ∉ ({0, 2, 4} : Finset Nat) := by
    intro i
    match i with
    | 0 | 1 | 2 | 3 | 4 => decide
    | i + 5 => simp [isActive, twoPaths]
  obtain ⟨k, h, hall, -, ⟨p, g', h', horder, horder'⟩, q, g'', h'', hfill, hfill'⟩ :=
    order_of_component hreach hnodes hapart hnodup hrest
  obtain ⟨x, hdegree⟩ : ∃ x, MinimumDegree.order twoPaths = .ok ([0, 1, 3, 2, 4], x) := ⟨_, by rfl⟩
  obtain ⟨y, hcost⟩ : ∃ y, MinimumFill.order twoPaths = .ok ([0, 1, 2, 3, 4], y) := ⟨_, by rfl⟩
  rw [horder] at hdegree
  obtain ⟨rfl, -⟩ := Outcome.ok_pair_inj.mp hdegree
  rw [hfill] at hcost
  obtain ⟨rfl, -⟩ := Outcome.ok_pair_inj.mp hcost
  exact ⟨hreach, hnodes, hapart, hnodup, hrest, k, h, g', h', h'', hall, horder, horder', hfill'⟩

end EliminationOrder.EliminationGraph

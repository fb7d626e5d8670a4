/-
What an elimination makes of the stored lists, entry for entry.

`Eliminated` already says it of the view of all nodes.  Here it is said of what a caller
can read: `Rewritten` has a field for each kind of node, and what it says of the lists
fixes their order too, which shows in later answers.  The marks with which an elimination
starts do not come into it.  Whatever is stamped in the scratch marker, as long as no
stamp is newer than its generation, the call ends with the same lists and the same count.
-/
import EliminationOrder.Proofs.Graph.Reachable

namespace EliminationOrder.EliminationGraph

variable {g g' : EliminationGraph} {n : Nat}

/-- What eliminating `n`, whose list is `ns`, makes of the lists and flags of `g`. -/
structure Rewritten (g : EliminationGraph) (n : Nat) (ns : List Nat) (g' : EliminationGraph) :
    Prop where
  /-- A neighbor keeps its own list without `n`, and what it lacked of `ns` comes after that. -/
  neighbor : ∀ m ∈ ns, ∃ ms, g.neighbors m = .ok ms ∧
    g'.neighbors m = .ok (ms.filter (· != n) ++ gained ns m ms) ∧ g'.isEliminated m = .ok false
  gone : g'.neighbors n = .ok [] ∧ g'.isEliminated n = .ok true
  /-- Any other number is answered as before, be it a node or not. -/
  other : ∀ i, i ≠ n → i ∉ ns →
    g'.neighbors i = g.neighbors i ∧ g'.isEliminated i = g.isEliminated i
  nactive : g'.nactive + 1 = g.nactive

/-- The accessors read nothing but the size, the list and the flag. -/
theorem accessors_congr {i : Nat} (hsize : g'.nnodes = g.nnodes)
    (hadj : g'.adjacent i = g.adjacent i) (hactive : g'.isActive i = g.isActive i) :
    g'.neighbors i = g.neighbors i ∧ g'.isEliminated i = g.isEliminated i := by
  by_cases hi : i < g.nnodes
  · have hi' : i < g'.nnodes := by rw [hsize]; exact hi
    rw [neighbors_eq hi, neighbors_eq hi', isEliminated_eq hi, isEliminated_eq hi', hadj, hactive]
    exact ⟨rfl, rfl⟩
  · have hle : g.nnodes ≤ i := Nat.not_lt.mp hi
    have hle' : g'.nnodes ≤ i := by rw [hsize]; exact hle
    rw [neighbors_eq_error hle, neighbors_eq_error hle', isEliminated_eq_error hle,
      isEliminated_eq_error hle', hsize]
    exact ⟨rfl, rfl⟩

/-- **The lists that an elimination leaves, as they are read.** -/
theorem Eliminated.rewritten (h : Eliminated g n g') (hg : g.Valid) (hn : g.isActive n = true) :
    Rewritten g n (g.adjacent n) g' := by
  have hlt : ∀ {i}, i < g.nnodes → i < g'.nnodes := by
    intro i hi
    rw [h.nnodes]
    exact hi
  refine ⟨?_, ?_, ?_, h.nactive⟩
  · intro m hm
    have hmn : m ≠ n := hg.ne_of_mem hm
    have hactive := hg.isActive_of_mem hm
    have hrange := lt_of_isActive hactive
    refine ⟨g.adjacent m, neighbors_eq hrange, ?_, ?_⟩
    · rw [neighbors_eq (hlt hrange), h.adjacent]
      unfold listAfter
      rw [if_neg hmn, if_pos hm]
      rfl
    · rw [isEliminated_eq (hlt hrange), h.isActive]
      simp [hmn, hactive]
  · have hrange := hlt (lt_of_isActive hn)
    rw [neighbors_eq hrange, isEliminated_eq hrange, h.adjacent, h.isActive]
    simp [listAfter]
  · intro i hin hi
    refine accessors_congr h.nnodes ?_ ?_
    · rw [h.adjacent]
      unfold listAfter
      rw [if_neg hin, if_neg hi]
    · simp [h.isActive, hin]

/-- Which marks there are makes no difference to an elimination. -/
theorem eliminate_withMarker (hg : g.Sound) (hn : g.isActive n = true) {m : Marker}
    (hm : Marker.Ready g.nnodes m) :
    ∃ g', (g.withMarker m).eliminate n = .ok (g.missing n, g') ∧ Eliminated g n g' := by
  obtain ⟨g', helim, hstep⟩ := eliminate_missing (hg.withMarker hm) hn
  exact ⟨g', helim, hstep.of_withMarker⟩

/--
**The exact effect of an elimination.**  Let `n` be an active node of a reachable graph, with
the list `ns`.  Eliminating it empties its list and takes it out.  Each of its neighbors keeps
its own list without `n`, followed by those of `ns`, in their order, that it did not have.
No other list or flag changes, and one node fewer is active.  What the neighbors gain is
twice the number that is answered.  All this is the same with any other marks in the
scratch marker.
-/
theorem eliminate_rewrites_lists (hg : Reachable g) (hn : g.isActive n = true) :
    ∃ ns k, g.neighbors n = .ok ns ∧
      (ns.map fun m => (gained ns m (g.adjacent m)).length).sum = 2 * k ∧
      (∃ g', g.eliminate n = .ok (k, g') ∧ Rewritten g n ns g') ∧
      ∀ m, Marker.Ready g.nnodes m →
        ∃ g', (g.withMarker m).eliminate n = .ok (k, g') ∧ Rewritten g n ns g' := by
  have hsound := hg.sound
  have hmarks : ∀ m, Marker.Ready g.nnodes m →
      ∃ g', (g.withMarker m).eliminate n = .ok (g.missing n, g') ∧
        Rewritten g n (g.adjacent n) g' := by
    intro m hm
    obtain ⟨g', helim, hstep⟩ := eliminate_withMarker hsound hn hm
    exact ⟨g', helim, hstep.rewritten hsound.valid hn⟩
  exact ⟨g.adjacent n, g.missing n, neighbors_eq (lt_of_isActive hn), gains_eq hsound.valid n,
    hmarks g.marker hsound.ready, hmarks⟩

/-- Without its second node a path has one edge more, also if everything is marked beforehand. -/
theorem eliminate_rewrites_fourPath :
    Reachable fourPath ∧ fourPath.isActive 1 = true ∧
      Marker.Ready fourPath.nnodes (Marker.fresh 4) ∧
      (∃ g', fourPath.eliminate 1 = .ok (1, g') ∧ g'.neighbors 2 = .ok [3, 0]) ∧
      ∃ g', (fourPath.withMarker (Marker.fresh 4)).eliminate 1 = .ok (1, g') ∧
        g'.neighbors 2 = .ok [3, 0] := by
  have hreach : Reachable fourPath := ⟨fourPath, built_fourPath, Calls.refl _⟩
  have hactive : fourPath.isActive 1 = true := rfl
  have hready : Marker.Ready fourPath.nnodes (Marker.fresh 4) := Marker.fresh_ready 4
  obtain ⟨ns, k, hns, hsum, ⟨g', helim, hrewritten⟩, hmarks⟩ :=
    eliminate_rewrites_lists hreach hactive
  obtain rfl : [0, 2] = ns := Except.ok.inj hns
  obtain rfl : k = 1 := by
    have htwo : 2 * k = 2 := by
      rw [← hsum]
      rfl
    omega
  obtain ⟨g'', helim', hrewritten'⟩ := hmarks _ hready
  have hlist : ∀ {h : EliminationGraph}, Rewritten fourPath 1 [0, 2] h →
      h.neighbors 2 = .ok [3, 0] := by
    intro h hr
    obtain ⟨ms, hms, hlist, -⟩ := hr.neighbor 2 (by decide)
    obtain rfl : [1, 3] = ms := Except.ok.inj hms
    rw [hlist]
    rfl
  exact ⟨hreach, hactive, hready, ⟨g', helim, hlist hrewritten⟩, g'', helim', hlist hrewritten'⟩

end EliminationOrder.EliminationGraph

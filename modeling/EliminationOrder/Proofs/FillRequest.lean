/-
Asking for the fill of an order.

The request looks at two things before it eliminates anything: whether the graph has lost a
node, and whether the list is an order of its nodes.  On a sound graph that settles it.  A
graph that counts as many active nodes as it has nodes has lost none, and different active
nodes can be eliminated one after the other to the end, so a request that gets past the
checks is carried out in full (`Sound.fillIn_ok`).

The graph is changed while the nodes are eliminated, so it could be left half way.
`fillInPlace` says what is left of it, also where an elimination breaks off.  Since none
does, the request is all or nothing: a refused one leaves the graph as it was.
-/
import EliminationOrder.FillIn
import EliminationOrder.Message
import EliminationOrder.Script
import EliminationOrder.Proofs.Graph.Reachable
import EliminationOrder.Proofs.Permutation

namespace EliminationOrder

variable {g g' : EliminationGraph} {k : Nat} {p ns : List Nat}

/-- The call is refused, and the argument of this name is at fault. -/
def RefusedOver {α : Type} (argument : String) (x : Outcome α) : Prop :=
  ∃ r, x = .error (.refused r) ∧ r.argument = argument

theorem refusedOver_refused {α : Type} {argument : String} {r : Refusal} :
    RefusedOver argument (.error (.refused r) : Outcome α) ↔ r.argument = argument := by
  unfold RefusedOver
  simp

theorem not_refusedOver_ok {α : Type} {argument : String} {x : α} :
    ¬ RefusedOver argument (.ok x) := by
  unfold RefusedOver
  simp

namespace EliminationGraph

/-! ### The checks -/

/-- The count is that of all nodes just when every node is active. -/
theorem Valid.nactive_eq_nnodes_iff (hg : g.Valid) :
    g.nactive = g.nnodes ↔ ∀ i < g.nnodes, g.isActive i = true := by
  have hlen : g.nnodes = (List.range g.nnodes).length := List.length_range.symm
  have hcount : g.nactive = g.nnodes ↔
      ((List.range g.nnodes).filter g.isActive).length = (List.range g.nnodes).length := by
    rw [hg.nactive_eq_length, ← hlen]
    rfl
  rw [hcount, List.length_filter_eq_length_iff]
  simp

/-- A graph that has lost a node is not asked any further. -/
theorem fillIn_of_gone (h : g.nactive ≠ g.nnodes) (p : List Nat) :
    g.fillIn p = .error (.refused (.alreadyEliminated (g.nnodes - g.nactive) g.nnodes)) := by
  unfold fillIn
  rw [if_pos h]

theorem fillIn_of_not_perm (hfull : g.nactive = g.nnodes) (hp : ¬ p.Perm (List.range g.nnodes)) :
    g.fillIn p = .error (.refused (.notPermutation g.nnodes)) := by
  unfold fillIn
  rw [if_neg (not_not.mpr hfull), Permutation.isPermutation_eq_false hp]
  rfl

/-- **An order of all nodes is eliminated to the end.** -/
theorem Sound.fillIn_ok (hg : g.Sound) (hfull : g.nactive = g.nnodes)
    (hp : p.Perm (List.range g.nnodes)) :
    ∃ k g', g.fillIn p = .ok (k, g') ∧ g.eliminateAll p = .ok (k, g') ∧ Run g p k g' := by
  have hactive : ∀ n ∈ p, g.isActive n = true := fun n hn =>
    hg.valid.nactive_eq_nnodes_iff.mp hfull n ((Permutation.mem_iff_lt hp).mp hn)
  obtain ⟨k, g', hall, hrun⟩ := eliminateAll_ok p hg (Permutation.nodup hp) hactive
  refine ⟨k, g', ?_, hall, hrun⟩
  unfold fillIn
  rw [if_neg (not_not.mpr hfull), (Permutation.isPermutation_iff_perm p g.nnodes).mpr hp]
  exact hall

/-- The request never faults: it answers, or is refused. -/
theorem Sound.fillIn_answers (hg : g.Sound) (p : List Nat) :
    (∃ k g', g.fillIn p = .ok (k, g')) ∨ ∃ r, g.fillIn p = .error (.refused r) := by
  by_cases hfull : g.nactive = g.nnodes
  · by_cases hp : p.Perm (List.range g.nnodes)
    · obtain ⟨k, g', hfill, -⟩ := hg.fillIn_ok hfull hp
      exact Or.inl ⟨k, g', hfill⟩
    · exact Or.inr ⟨_, fillIn_of_not_perm hfull hp⟩
  · exact Or.inr ⟨_, fillIn_of_gone hfull p⟩

/-- After an order of all nodes none is left. -/
theorem Run.isActive_eq_false (h : Run g p k g') (hp : p.Perm (List.range g.nnodes)) (i : Nat) :
    g'.isActive i = false := by
  by_contra hc
  obtain ⟨hnot, hi⟩ := (h.isActive_iff i).mp (by simpa using hc)
  exact hnot ((Permutation.mem_iff_lt hp).mpr (lt_of_isActive hi))

/-! ### What is left of the graph -/

section InPlace

-- What an elimination that breaks off would leave: nothing is assumed of it.
variable (broken : EliminationGraph → Nat → EliminationGraph)

/-- Eliminates the nodes of a list in order, and gives what is left also if that breaks off. -/
def eliminateInPlace (g : EliminationGraph) : List Nat → Outcome Nat × EliminationGraph
  | [] => (.ok 0, g)
  | n :: ns =>
    match g.eliminate n with
    | .error e => (.error e, broken g n)
    | .ok (added, g') =>
      let rest := eliminateInPlace g' ns
      (rest.1.map (added + ·), rest.2)

/-- Counts the fill of an order on the graph itself, and gives what is left of it in any case. -/
def fillInPlace (g : EliminationGraph) (p : List Nat) : Outcome Nat × EliminationGraph :=
  if g.nactive ≠ g.nnodes then
    (.error (.refused (.alreadyEliminated (g.nnodes - g.nactive) g.nnodes)), g)
  else if !Permutation.isPermutation p g.nnodes then
    (.error (.refused (.notPermutation g.nnodes)), g)
  else
    g.eliminateInPlace broken p

/-- If every elimination answers, nothing breaks off. -/
theorem eliminateInPlace_of_ok :
    ∀ {ns : List Nat} {g : EliminationGraph} {k : Nat}, g.eliminateAll ns = .ok (k, g') →
      g.eliminateInPlace broken ns = (.ok k, g') := by
  intro ns
  induction ns with
  | nil =>
      intro g k h
      obtain ⟨rfl, rfl⟩ := Outcome.ok_pair_inj.mp h
      rfl
  | cons n ns ih =>
      intro g k h
      obtain ⟨added, g₁, more, helim, hall, rfl⟩ := eliminateAll_cons h
      unfold eliminateInPlace
      rw [helim]
      show ((g₁.eliminateInPlace broken ns).1.map (added + ·), _) = _
      rw [ih hall]
      rfl

/-- **On a sound graph the request is all or nothing.** -/
theorem Sound.fillInPlace_eq (hg : g.Sound) (p : List Nat) :
    g.fillInPlace broken p = Script.settle g (g.fillIn p) := by
  unfold fillInPlace
  by_cases hfull : g.nactive = g.nnodes
  · rw [if_neg (not_not.mpr hfull)]
    by_cases hp : p.Perm (List.range g.nnodes)
    · obtain ⟨k, g', hfill, hall, -⟩ := hg.fillIn_ok hfull hp
      rw [(Permutation.isPermutation_iff_perm p g.nnodes).mpr hp, hfill]
      exact eliminateInPlace_of_ok broken hall
    · rw [Permutation.isPermutation_eq_false hp, fillIn_of_not_perm hfull hp]
      rfl
  · rw [if_pos hfull, fillIn_of_gone hfull]
    rfl

end InPlace

/--
**Asking for the fill of an order is all or nothing.**  Of a graph that has come about in any
way, the request is refused over the graph just when a node has been eliminated, and then
over the order just when the list is no order of the nodes.  Otherwise every node is
eliminated and its list emptied.  It never faults, and carried out on the graph itself it
leaves what was there before if it is refused, and what it answers with if it is not; so
whatever is asked afterwards is asked as if the refused request had not been made.
-/
theorem fillIn_all_or_nothing (hg : Reachable g) (p : List Nat) :
    (RefusedOver "graph" (g.fillIn p) ↔ ∃ i, g.isEliminated i = .ok true) ∧
    ((∀ i, g.isEliminated i ≠ .ok true) →
      (RefusedOver "permutation" (g.fillIn p) ↔ ¬ p.Perm (List.range g.nnodes)) ∧
      (p.Perm (List.range g.nnodes) →
        ∃ k g', g.fillIn p = .ok (k, g') ∧ g'.nnodes = g.nnodes ∧ g'.nactive = 0 ∧
          ∀ i < g.nnodes, g'.isEliminated i = .ok true ∧ g'.neighbors i = .ok [])) ∧
    (∀ f, g.fillIn p ≠ .error (.fault f)) ∧
    ∀ broken, g.fillInPlace broken p = Script.settle g (g.fillIn p) := by
  have hsound := hg.sound
  have hgone : g.nactive ≠ g.nnodes ↔ ∃ i, g.isEliminated i = .ok true := by
    rw [Ne, hsound.valid.nactive_eq_nnodes_iff]
    simp [isEliminated_eq_true_iff]
  refine ⟨?_, ?_, ?_, fun broken => hsound.fillInPlace_eq broken p⟩
  · rw [← hgone]
    by_cases hfull : g.nactive = g.nnodes
    · refine ⟨fun h => ?_, fun hc => absurd hfull hc⟩
      by_cases hp : p.Perm (List.range g.nnodes)
      · obtain ⟨k, g', hfill, -⟩ := hsound.fillIn_ok hfull hp
        rw [hfill] at h
        exact absurd h not_refusedOver_ok
      · rw [fillIn_of_not_perm hfull hp, refusedOver_refused] at h
        exact absurd (show "permutation" = "graph" from h) (by decide)
    · rw [fillIn_of_gone hfull, refusedOver_refused]
      exact ⟨fun _ => hfull, fun _ => rfl⟩
  · intro hnone
    have hfull : g.nactive = g.nnodes := by
      by_contra hc
      obtain ⟨i, hi⟩ := hgone.mp hc
      exact hnone i hi
    refine ⟨⟨?_, ?_⟩, ?_⟩
    · intro h hp
      obtain ⟨k, g', hfill, -⟩ := hsound.fillIn_ok hfull hp
      rw [hfill] at h
      exact not_refusedOver_ok h
    · intro hp
      rw [fillIn_of_not_perm hfull hp, refusedOver_refused]
      rfl
    · intro hp
      obtain ⟨k, g', hfill, -, hrun⟩ := hsound.fillIn_ok hfull hp
      have hinactive := hrun.isActive_eq_false hp
      refine ⟨k, g', hfill, hrun.nnodes, ?_, ?_⟩
      · exact (hrun.sound hsound).valid.nactive_eq_zero_iff.mpr hinactive
      · intro i hi
        rw [← hrun.nnodes] at hi
        exact ⟨isEliminated_eq_true_iff.mpr ⟨hi, hinactive i⟩,
          by rw [neighbors_eq hi, adjacent_eq_nil (hinactive i)]⟩
  · intro f hf
    rcases hsound.fillIn_answers p with ⟨k, g', hfill⟩ | ⟨r, hrefused⟩
    · exact absurd (hfill.symm.trans hf) (by simp)
    · exact absurd (hrefused.symm.trans hf) (by simp)

/-- On a path that has lost a node no order is taken; on a whole one, only an order of its nodes. -/
theorem fillIn_all_or_nothing_paths :
    Reachable fourPath ∧ Reachable shortenedPath ∧
      RefusedOver "graph" (shortenedPath.fillIn [0, 2, 3]) ∧
      RefusedOver "permutation" (fourPath.fillIn [1, 0, 2, 1]) ∧
      (∀ broken, ∃ e, fourPath.fillInPlace broken [1, 0, 2, 1] = (.error e, fourPath)) ∧
      ∃ k g', fourPath.fillIn [1, 0, 2, 3] = .ok (k, g') ∧ g'.nactive = 0 := by
  have hwhole : Reachable fourPath := ⟨fourPath, built_fourPath, Calls.refl fourPath⟩
  have hshort : Reachable shortenedPath := ⟨fourPath, built_fourPath, calls_shortenedPath⟩
  have hnone : ∀ i, fourPath.isEliminated i ≠ .ok true := by
    intro i hi
    obtain ⟨hlt, hgone⟩ := isEliminated_eq_true_iff.mp hi
    have hactive : ∀ j < 4, fourPath.isActive j = true := by decide
    rw [hactive i hlt] at hgone
    exact Bool.noConfusion hgone
  obtain ⟨hgraph, -⟩ := fillIn_all_or_nothing hshort [0, 2, 3]
  obtain ⟨-, hrest, -, hplace⟩ := fillIn_all_or_nothing hwhole [1, 0, 2, 1]
  obtain ⟨hperm, -⟩ := hrest hnone
  obtain ⟨-, hrest', -⟩ := fillIn_all_or_nothing hwhole [1, 0, 2, 3]
  obtain ⟨k, g', hfill, -, hzero, -⟩ := (hrest' hnone).2 (by decide)
  have hover : RefusedOver "permutation" (fourPath.fillIn [1, 0, 2, 1]) := hperm.mpr (by decide)
  refine ⟨hwhole, hshort, hgraph.mpr ⟨1, rfl⟩, hover, ?_, k, g', hfill, hzero⟩
  intro broken
  obtain ⟨r, hr, -⟩ := hover
  rw [hplace broken, hr]
  exact ⟨_, rfl⟩

end EliminationGraph

end EliminationOrder

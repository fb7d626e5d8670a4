/-
What eliminating a node does.

`Eliminated g n g'` says it all at once: in `g'` the node `n` is gone, each of its
neighbors has its own list without `n` followed by what it gained, and nothing else has
changed.  `eliminate_ok` proves that eliminating an active node of a sound graph answers
and ends there, in a sound graph again.

The neighbors are rewritten one after the other, and while that goes on the lists are
not symmetric: some of them name nodes that do not name them yet.  So the loop is not
followed through the invariant.  What carries it is that rewriting a neighbor reads only
its own list, which no earlier rewriting has touched, and `Inherited` records exactly
that.  Symmetry is regained at the end, from `mem_listAfter`.
-/
import EliminationOrder.Proofs.Graph.Sound
import Mathlib.Algebra.GroupWithZero.Nat

namespace EliminationOrder.EliminationGraph

variable {g g' : EliminationGraph} {n u v : Nat}

/-! ### The lists that come out -/

/-- What `m` gains from the list `ns` if it has the list `ms`. -/
def gained (ns : List Nat) (m : Nat) (ms : List Nat) : List Nat :=
  ns.filter fun x => x != m && !ms.contains x

/-- The list of `m` without `n`, followed by what it gains. -/
def merged (n : Nat) (ns : List Nat) (m : Nat) (ms : List Nat) : List Nat :=
  ms.filter (· != n) ++ gained ns m ms

/-- The list of `u` once `n` is eliminated. -/
def listAfter (g : EliminationGraph) (n u : Nat) : List Nat :=
  if u = n then []
  else if u ∈ g.adjacent n then merged n (g.adjacent n) u (g.adjacent u)
  else g.adjacent u

theorem mem_gained {ns ms : List Nat} {m x : Nat} :
    x ∈ gained ns m ms ↔ x ∈ ns ∧ x ≠ m ∧ x ∉ ms := by
  simp [gained]

theorem mem_merged {ns ms : List Nat} {n m x : Nat} :
    x ∈ merged n ns m ms ↔ (x ∈ ms ∧ x ≠ n) ∨ (x ∈ ns ∧ x ≠ m ∧ x ∉ ms) := by
  simp [merged, mem_gained]

/--
**Eliminating a node joins its neighbors to each other and to nothing else.**  Two nodes
are joined afterwards if they were joined before or were both neighbors of the node.
-/
theorem mem_listAfter (hg : g.Valid) :
    v ∈ g.listAfter n u ↔
      u ≠ n ∧ v ≠ n ∧ u ≠ v ∧ (v ∈ g.adjacent u ∨ (u ∈ g.adjacent n ∧ v ∈ g.adjacent n)) := by
  unfold listAfter
  by_cases hun : u = n
  · simp [hun]
  by_cases hmem : u ∈ g.adjacent n
  · rw [if_neg hun, if_pos hmem, mem_merged]
    constructor
    · intro h
      rcases h with ⟨hv, hvn⟩ | ⟨hv, hvu, -⟩
      · exact ⟨hun, hvn, (hg.ne_of_mem hv).symm, Or.inl hv⟩
      · exact ⟨hun, hg.ne_of_mem hv, hvu.symm, Or.inr ⟨hmem, hv⟩⟩
    · intro h
      obtain ⟨-, hvn, huv, hjoined⟩ := h
      rcases hjoined with hv | ⟨-, hv⟩
      · exact Or.inl ⟨hv, hvn⟩
      · by_cases hvu : v ∈ g.adjacent u
        · exact Or.inl ⟨hvu, hvn⟩
        · exact Or.inr ⟨hv, huv.symm, hvu⟩
  · rw [if_neg hun, if_neg hmem]
    constructor
    · intro hv
      refine ⟨hun, ?_, (hg.ne_of_mem hv).symm, Or.inl hv⟩
      rintro rfl
      exact hmem (hg.mem_comm.mp hv)
    · intro h
      rcases h.2.2.2 with hv | ⟨hu, -⟩
      · exact hv
      · exact absurd hu hmem

theorem nodup_listAfter (hg : g.Valid) (n u : Nat) : (g.listAfter n u).Nodup := by
  unfold listAfter
  split
  · exact List.nodup_nil
  split
  · refine List.nodup_append.mpr
      ⟨(hg.nodup_adjacent u).filter _, (hg.nodup_adjacent n).filter _, ?_⟩
    rintro x hx y hy rfl
    exact (mem_gained.mp hy).2.2 (List.mem_filter.mp hx).1
  · exact hg.nodup_adjacent u

/-! ### Rewriting the neighbors -/

/-- `g'` is `g` after the nodes of `ms` have inherited from `n`, whose list is `ns`. -/
structure Inherited (n : Nat) (ns ms : List Nat) (g g' : EliminationGraph) : Prop where
  nnodes : g'.nnodes = g.nnodes
  nactive : g'.nactive = g.nactive
  counted : g'.nodes.countP Node.isActive = g.nodes.countP Node.isActive
  isActive : ∀ i, g'.isActive i = g.isActive i
  adjacent : ∀ i, g'.adjacent i =
    if i ∈ ms then merged n ns i (g.adjacent i) else g.adjacent i
  ready : Marker.Ready g'.nnodes g'.marker

theorem inherit_ok {ns : List Nat} {m : Nat} (hready : Marker.Ready g.nnodes g.marker)
    (hm : g.isActive m = true) (hms : ∀ x ∈ g.adjacent m, x < g.nnodes)
    (hns : ∀ x ∈ ns, x < g.nnodes) (hnodup : ns.Nodup) (hn : n ∉ ns) :
    ∃ g', g.inherit n ns m = .ok ((gained ns m (g.adjacent m)).length, g') ∧
      Inherited n ns [m] g g' := by
  set kept := (g.adjacent m).filter (· != n) with hkept
  obtain ⟨m₁, hmark, hready₁, hc₁⟩ := Marker.markAll_ok kept (Marker.advance_ready hready)
    (fun x hx => hms x (List.mem_filter.mp hx).1)
  obtain ⟨m₂, hclaim, hready₂, -⟩ := Marker.claim_ok (ns.filter (· != m)) hready₁
    (fun x hx => hns x (List.mem_filter.mp hx).1)
  -- The marks are those of the old list: `n` itself, the one entry left out, is not claimed.
  have hgained : ((ns.filter (· != m)).filter fun x => !m₁.contains x).eraseDups
      = gained ns m (g.adjacent m) := by
    rw [eraseDups_eq_self ((hnodup.filter _).filter _), List.filter_filter, gained]
    refine List.filter_congr fun x hx => ?_
    have hxn : x ≠ n := fun hc => hn (hc ▸ hx)
    simp [hc₁, Marker.contains_advance hready, hkept, hxn, Bool.and_comm]
  have hlt : m < g.nnodes := lt_of_isActive hm
  set g' : EliminationGraph :=
    { g with nodes := g.nodes.setIfInBounds m (.active (merged n ns m (g.adjacent m))),
             marker := m₂ } with hg'
  have hnodes : g'.nodes = g.nodes.setIfInBounds m (.active (merged n ns m (g.adjacent m))) := rfl
  refine ⟨g', ?_, nnodes_write hnodes, rfl, ?_, ?_, ?_, ?_⟩
  · simp only [inherit, activeNeighbors_eq hm, Outcome.ok_bind, ← hkept, hmark, hclaim, hgained,
      Outcome.pure_eq_ok]
    rfl
  · have := countP_write hnodes hlt hm
    simpa [Node.isActive] using this
  · intro i
    rw [isActive_write hnodes hlt]
    split
    · rename_i him
      rw [him, hm, Node.isActive]
    · rfl
  · intro i
    rw [adjacent_write hnodes hlt]
    by_cases him : i = m
    · simp [him, Node.neighbors]
    · simp [him]
  · rw [nnodes_write hnodes]
    exact hready₂

/-- Each node is rewritten from its own old list, so the order of rewriting does not matter. -/
theorem Inherited.cons {ns ms : List Nat} {m : Nat} {g₁ g₂ : EliminationGraph}
    (h₁ : Inherited n ns [m] g g₁) (h₂ : Inherited n ns ms g₁ g₂) (hm : m ∉ ms) :
    Inherited n ns (m :: ms) g g₂ := by
  refine ⟨h₂.nnodes.trans h₁.nnodes, h₂.nactive.trans h₁.nactive, h₂.counted.trans h₁.counted,
    fun i => (h₂.isActive i).trans (h₁.isActive i), ?_, h₂.ready⟩
  intro i
  rw [h₂.adjacent i, h₁.adjacent i]
  by_cases him : i = m
  · subst him
    simp [hm]
  · simp [him]

theorem inheritAll_ok {ns : List Nat} (hnodup : ns.Nodup) (hn : n ∉ ns) (ms : List Nat) :
    ∀ {g : EliminationGraph}, Marker.Ready g.nnodes g.marker → (∀ x ∈ ns, x < g.nnodes) →
      ms.Nodup → (∀ m ∈ ms, g.isActive m = true) →
      (∀ m ∈ ms, ∀ x ∈ g.adjacent m, x < g.nnodes) →
      ∃ g', g.inheritAll n ns ms
          = .ok ((ms.map fun m => (gained ns m (g.adjacent m)).length).sum, g') ∧
        Inherited n ns ms g g' := by
  induction ms with
  | nil =>
      intro g hready _ _ _ _
      exact ⟨g, rfl, rfl, rfl, rfl, fun _ => rfl, fun i => by simp, hready⟩
  | cons m ms ih =>
      intro g hready hns hms hactive hlists
      obtain ⟨hm, hms'⟩ := List.nodup_cons.mp hms
      obtain ⟨g₁, hinherit, h₁⟩ :=
        inherit_ok hready (hactive m (by simp)) (hlists m (by simp)) hns hnodup hn
      -- The lists still to be rewritten are the old ones.
      have hold : ∀ i ∈ ms, g₁.adjacent i = g.adjacent i := by
        intro i hi
        have him : i ≠ m := fun hc => hm (hc ▸ hi)
        simp [h₁.adjacent i, him]
      obtain ⟨g₂, hall, h₂⟩ := ih h₁.ready (by rw [h₁.nnodes]; exact hns) hms'
        (fun i hi => by rw [h₁.isActive]; exact hactive i (by simp [hi]))
        (fun i hi => by rw [h₁.nnodes, hold i hi]; exact hlists i (by simp [hi]))
      refine ⟨g₂, ?_, h₁.cons h₂ hm⟩
      have hsum : (ms.map fun i => (gained ns i (g₁.adjacent i)).length)
          = ms.map fun i => (gained ns i (g.adjacent i)).length :=
        List.map_congr_left fun i hi => by rw [hold i hi]
      simp [inheritAll, hinherit, hall, hsum]

/-! ### The whole step -/

/-- `g'` is what is left of `g` once `n` is eliminated. -/
structure Eliminated (g : EliminationGraph) (n : Nat) (g' : EliminationGraph) : Prop where
  nnodes : g'.nnodes = g.nnodes
  isActive : ∀ i, g'.isActive i = (i != n && g.isActive i)
  nactive : g'.nactive + 1 = g.nactive
  adjacent : ∀ i, g'.adjacent i = g.listAfter n i
  sound : g'.Sound

/-- How many entries the neighbors of `n` gain when it is eliminated. -/
def gains (g : EliminationGraph) (n : Nat) : Nat :=
  ((g.adjacent n).map fun m => (gained (g.adjacent n) m (g.adjacent m)).length).sum

theorem retire_ok (hn : g.isActive n = true)
    (hcount : g.nodes.countP Node.isActive = g.nactive) :
    ∃ g', g.retire n = .ok g' ∧ g'.nodes = g.nodes.setIfInBounds n .eliminated ∧
      g'.nactive + 1 = g.nactive ∧ g'.marker = g.marker := by
  obtain ⟨ns, hns⟩ := isActive_iff.mp hn
  have hpos : 0 < g.nodes.countP Node.isActive :=
    Array.countP_pos_iff.mpr ⟨_, Array.mem_of_getElem? hns, rfl⟩
  unfold retire
  split
  · omega
  · rename_i k hk
    exact ⟨_, rfl, rfl, hk.symm, rfl⟩

/-- The lists that come out make a valid graph. -/
theorem valid_of_listAfter (hg : g.Valid)
    (hcount : g'.nodes.countP Node.isActive = g'.nactive)
    (hadj : ∀ i, g'.adjacent i = g.listAfter n i) : g'.Valid := by
  refine ⟨hcount, ?_, ?_, ?_⟩
  · intro i _ hi
    rw [hadj, mem_listAfter hg] at hi
    exact hi.2.2.1 rfl
  · intro i _
    rw [hadj]
    exact nodup_listAfter hg n i
  · intro i _ j hj
    rw [hadj, mem_listAfter hg] at hj ⊢
    obtain ⟨hi, hj, hij, hmem | ⟨hmi, hmj⟩⟩ := hj
    · exact ⟨hj, hi, hij.symm, Or.inl (hg.mem_comm.mp hmem)⟩
    · exact ⟨hj, hi, hij.symm, Or.inr ⟨hmj, hmi⟩⟩

/--
**An active node of a sound graph can be eliminated.**  The call answers with half of the
entries gained, and what is left is a sound graph without the node.
-/
theorem eliminate_ok (hg : g.Sound) (hn : g.isActive n = true) :
    ∃ g', g.eliminate n = .ok (g.gains n / 2, g') ∧ Eliminated g n g' := by
  have hlt : n < g.nnodes := lt_of_isActive hn
  have hself : n ∉ g.adjacent n := hg.valid.not_mem_self n
  obtain ⟨g₁, hall, h₁⟩ := inheritAll_ok (hg.valid.nodup_adjacent n) hself (g.adjacent n) hg.ready
    (fun x hx => hg.valid.lt_of_mem hx) (hg.valid.nodup_adjacent n)
    (fun m hm => hg.valid.isActive_of_mem hm) (fun m _ x hx => hg.valid.lt_of_mem hx)
  have hcount₁ : g₁.nodes.countP Node.isActive = g₁.nactive := by
    rw [h₁.counted, h₁.nactive, hg.valid.counted]
  have hn₁ : g₁.isActive n = true := by rw [h₁.isActive, hn]
  have hlt₁ : n < g₁.nnodes := by rw [h₁.nnodes]; exact hlt
  obtain ⟨g₂, hretire, hnodes, hnactive, hmarker⟩ := retire_ok hn₁ hcount₁
  have hnnodes : g₂.nnodes = g.nnodes := (nnodes_write hnodes).trans h₁.nnodes
  have hadj : ∀ i, g₂.adjacent i = g.listAfter n i := by
    intro i
    rw [adjacent_write hnodes hlt₁, h₁.adjacent]
    rfl
  have hcount₂ : g₂.nodes.countP Node.isActive = g₂.nactive := by
    have := countP_write hnodes hlt₁ hn₁
    simp only [Node.isActive, Bool.false_eq_true, if_false] at this
    omega
  refine ⟨g₂, ?_, hnnodes, ?_, ?_, hadj, valid_of_listAfter hg.valid hcount₂ hadj, ?_⟩
  · simp [eliminate, activeNeighbors_eq hn, hall, hretire, gains]
  · intro i
    rw [isActive_write hnodes hlt₁, h₁.isActive]
    by_cases hi : i = n
    · simp [hi, Node.isActive]
    · simp [hi]
  · rw [hnactive, h₁.nactive]
  · rw [hnnodes, hmarker, ← h₁.nnodes]
    exact h₁.ready

/-- Only active nodes can be eliminated. -/
theorem isActive_of_eliminate {k : Nat} (h : g.eliminate n = .ok (k, g')) :
    g.isActive n = true := by
  obtain ⟨ns, hns, -⟩ := Outcome.bind_eq_ok.mp h
  exact isActive_of_activeNeighbors hns

/-- What a call that answered has done. -/
theorem eliminated_of_eliminate {k : Nat} (hg : g.Sound) (h : g.eliminate n = .ok (k, g')) :
    k = g.gains n / 2 ∧ Eliminated g n g' := by
  obtain ⟨g₁, hok, helim⟩ := eliminate_ok hg (isActive_of_eliminate h)
  rw [h] at hok
  obtain ⟨rfl, rfl⟩ := Outcome.ok_pair_inj.mp hok
  exact ⟨rfl, helim⟩

/-- Who is joined to whom after an elimination. -/
theorem Eliminated.mem_adjacent (h : Eliminated g n g') (hg : g.Valid) :
    v ∈ g'.adjacent u ↔
      u ≠ n ∧ v ≠ n ∧ u ≠ v ∧ (v ∈ g.adjacent u ∨ (u ∈ g.adjacent n ∧ v ∈ g.adjacent n)) := by
  rw [h.adjacent, mem_listAfter hg]

/-- An elimination is the same whatever marks there were before. -/
theorem Eliminated.of_withMarker {m : Marker} (h : Eliminated (g.withMarker m) n g') :
    Eliminated g n g' :=
  ⟨h.nnodes, h.isActive, h.nactive, h.adjacent, h.sound⟩

end EliminationOrder.EliminationGraph

/-
Orders that take a cheapest node at every step.

`Least cost g n` says that `n` is the active node of least cost, the lowest-numbered of
several, where the cost is read off the lists.  `GreedyRun` eliminates such a node until
none is active.  Nothing is left to choose in it: two runs from graphs with the same
lists take the same nodes (`GreedyRun.unique`), so whatever follows the rule, however it
finds its nodes, gives the same order.

`GreedyRun.simulation` is the induction behind that, for any relation of two graphs that
the choice respects and an elimination keeps.  `GreedyRun.least_of_run` goes the other
way, from an order that the rule gave back to its choices: eliminating any number of
nodes from the front of the order leaves a graph in which the next one is least.
-/
import EliminationOrder.Proofs.Graph.Reachable

namespace EliminationOrder

/--
The first least element of a list.  `index` orders the list; elements that come before
the one found are strictly larger.
-/
theorem minOn?_first {α : Type} {f index : α → Nat} :
    ∀ {l : List α}, l.Pairwise (fun a b => index a < index b) → l ≠ [] →
      ∃ x ∈ l, l.minOn? f = some x ∧ ∀ y ∈ l, f x ≤ f y ∧ (index y < index x → f x < f y) := by
  intro l
  induction l with
  | nil =>
      intro _ hne
      exact absurd rfl hne
  | cons a l ih =>
      intro hl _
      obtain ⟨ha, hl'⟩ := List.pairwise_cons.mp hl
      by_cases hnil : l = []
      · subst hnil
        exact ⟨a, by simp, by simp, by simp⟩
      obtain ⟨x, hx, hmin, hleast⟩ := ih hl' hnil
      have hax := ha x hx
      rw [List.minOn?_cons, hmin]
      by_cases hle : f a ≤ f x
      · refine ⟨a, by simp, by simp [minOn, hle], ?_⟩
        intro y hy
        rcases List.mem_cons.mp hy with rfl | hy
        · exact ⟨Nat.le_refl _, fun hlt => absurd hlt (Nat.lt_irrefl _)⟩
        · have hay := ha y hy
          exact ⟨Nat.le_trans hle (hleast y hy).1, fun hlt => by omega⟩
      · refine ⟨x, by simp [hx], by simp [minOn, hle], ?_⟩
        intro y hy
        rcases List.mem_cons.mp hy with rfl | hy
        · exact ⟨by omega, fun _ => by omega⟩
        · exact hleast y hy

namespace EliminationGraph

variable {g g' : EliminationGraph} {n : Nat} {cost : (Nat → List Nat) → Nat → Nat}

theorem activeNodes_ascending (g : EliminationGraph) : g.activeNodes.Pairwise (· < ·) :=
  List.pairwise_lt_range.filter _

theorem activeNodes_ne_nil (hg : g.Valid) (h : g.nactive ≠ 0) : g.activeNodes ≠ [] := by
  intro hnil
  refine h (hg.nactive_eq_zero_iff.mpr fun i => ?_)
  by_contra hc
  have hmem : i ∈ g.activeNodes := mem_activeNodes.mpr (by simpa using hc)
  rw [hnil] at hmem
  exact List.not_mem_nil hmem

/-- The active node of least cost, the lowest of several. -/
structure Least (cost : (Nat → List Nat) → Nat → Nat) (g : EliminationGraph) (n : Nat) : Prop where
  isActive : g.isActive n = true
  least : ∀ i, g.isActive i = true →
    cost g.adjacent n ≤ cost g.adjacent i ∧ (i < n → cost g.adjacent n < cost g.adjacent i)

theorem least_withMarker {m : Marker} : Least cost (g.withMarker m) n ↔ Least cost g n :=
  ⟨fun h => ⟨h.isActive, h.least⟩, fun h => ⟨h.isActive, h.least⟩⟩

/-- There is one such node. -/
theorem Least.unique {m : Nat} (hn : Least cost g n) (hm : Least cost g m) : n = m := by
  have h₁ := hn.least m hm.isActive
  have h₂ := hm.least n hn.isActive
  rcases Nat.lt_trichotomy n m with hlt | heq | hgt
  · have := h₂.2 hlt
    omega
  · exact heq
  · have := h₁.2 hgt
    omega

/-- Which node is least shows in the lists alone. -/
theorem Least.congr (h : Least cost g' n) (hadj : g.adjacent = g'.adjacent)
    (hactive : g.isActive = g'.isActive) : Least cost g n :=
  ⟨by rw [hactive]; exact h.isActive, by rw [hactive, hadj]; exact h.least⟩

/-- Eliminating the node of least cost until none is active: the nodes, and what is left. -/
inductive GreedyRun (cost : (Nat → List Nat) → Nat → Nat) :
    EliminationGraph → List Nat → EliminationGraph → Prop
  | nil {g : EliminationGraph} (h : ∀ i, g.isActive i = false) : GreedyRun cost g [] g
  | cons {g g₁ g₂ : EliminationGraph} {n : Nat} {p : List Nat} (hn : Least cost g n)
      (hstep : Eliminated g n g₁) (hrest : GreedyRun cost g₁ p g₂) :
      GreedyRun cost g (n :: p) g₂

/-- Eliminating a node from equal lists leaves equal lists. -/
theorem Eliminated.congr {g₁ g₂ g₁' g₂' : EliminationGraph} (h₁ : Eliminated g₁ n g₁')
    (h₂ : Eliminated g₂ n g₂') (hadj : g₁.adjacent = g₂.adjacent)
    (hactive : g₁.isActive = g₂.isActive) :
    g₁'.adjacent = g₂'.adjacent ∧ g₁'.isActive = g₂'.isActive := by
  constructor
  · funext i
    rw [h₁.adjacent, h₂.adjacent, listAfter, listAfter, hadj]
  · funext i
    rw [h₁.isActive, h₂.isActive, hactive]

namespace GreedyRun

variable {p : List Nat}

/-- Runs from related graphs take the same nodes, if related graphs have the same node of
least cost and stay related when it is eliminated from both. -/
theorem simulation (related : EliminationGraph → EliminationGraph → Prop)
    (hactive : ∀ {g h : EliminationGraph}, related g h → g.isActive = h.isActive)
    (hleast : ∀ {g h : EliminationGraph} {n : Nat}, related g h → Least cost h n → Least cost g n)
    (hstep : ∀ {g h g' h' : EliminationGraph} {n : Nat}, related g h → Eliminated g n g' →
      Eliminated h n h' → related g' h')
    {g₁ g₂ g₁' g₂' : EliminationGraph} {q : List Nat} (h₁ : GreedyRun cost g₁ p g₁')
    (h₂ : GreedyRun cost g₂ q g₂') (h : related g₁ g₂) : p = q := by
  induction h₁ generalizing g₂ q with
  | nil hnone =>
      cases h₂ with
      | nil _ => rfl
      | cons hn _ _ =>
          have := hn.isActive
          rw [← hactive h, hnone] at this
          exact Bool.noConfusion this
  | cons hn hstep₁ _ ih =>
      cases h₂ with
      | nil hnone =>
          have := hn.isActive
          rw [hactive h, hnone] at this
          exact Bool.noConfusion this
      | cons hm hstep₂ hrest₂ =>
          obtain rfl := hn.unique (hleast h hm)
          rw [ih hrest₂ (hstep h hstep₁ hstep₂)]

/-- **The rule leaves no choice.** -/
theorem unique {g₁ g₂ g₁' g₂' : EliminationGraph} {q : List Nat} (h₁ : GreedyRun cost g₁ p g₁')
    (h₂ : GreedyRun cost g₂ q g₂') (hadj : g₁.adjacent = g₂.adjacent)
    (hactive : g₁.isActive = g₂.isActive) : p = q := by
  refine simulation (fun g h => g.adjacent = h.adjacent ∧ g.isActive = h.isActive)
    (fun h => h.2) ?_ ?_ h₁ h₂ ⟨hadj, hactive⟩
  · intro g h n hsame hn
    exact hn.congr hsame.1 hsame.2
  · intro g h g' h' n hsame hstep₁ hstep₂
    exact hstep₁.congr hstep₂ hsame.1 hsame.2

/-- **Every choice of the rule is the least.**  Once the nodes before it in the order have
been eliminated, the next one is the node of least cost. -/
theorem least_of_run (h : GreedyRun cost g p g') :
    ∀ {g₀ g₁ : EliminationGraph} {k total : Nat}, g₀.adjacent = g.adjacent →
      g₀.isActive = g.isActive → Run g₀ (p.take k) total g₁ → (hk : k < p.length) →
      Least cost g₁ p[k] := by
  induction h with
  | nil _ =>
      intro _ _ k _ _ _ _ hk
      exact absurd hk (Nat.not_lt_zero k)
  | cons hn hstep _ ih =>
      intro g₀ g₁ k total hadj hactive hrun hk
      cases k with
      | zero =>
          cases hrun
          exact hn.congr hadj hactive
      | succ k =>
          cases hrun with
          | cons _ hstep₀ hrest =>
              obtain ⟨hadj', hactive'⟩ := hstep₀.congr hstep hadj hactive
              exact ih hadj' hactive' hrest (Nat.lt_of_succ_lt_succ hk)

/-- The nodes taken are those that were active. -/
theorem mem_iff (h : GreedyRun cost g p g') (i : Nat) : i ∈ p ↔ g.isActive i = true := by
  induction h with
  | nil hnone => simp [hnone]
  | @cons g _ _ n _ hn hstep _ ih =>
      rw [List.mem_cons, ih, hstep.isActive, Bool.and_eq_true, bne_iff_ne]
      constructor
      · intro h
        rcases h with rfl | ⟨-, hi⟩
        · exact hn.isActive
        · exact hi
      · intro hi
        by_cases hin : i = n
        · exact Or.inl hin
        · exact Or.inr ⟨hin, hi⟩

/-- No node is taken twice. -/
theorem nodup (h : GreedyRun cost g p g') : p.Nodup := by
  induction h with
  | nil _ => exact List.nodup_nil
  | @cons g _ _ n _ hn hstep hrest ih =>
      refine List.nodup_cons.mpr ⟨?_, ih⟩
      intro hmem
      rw [hrest.mem_iff, hstep.isActive] at hmem
      simp at hmem

/-- On a graph that has lost no node, the order holds every node once. -/
theorem perm_range {size : Nat} (h : GreedyRun cost g p g') (hg : Fresh size g) :
    p.Perm (List.range size) := by
  rw [List.perm_ext_iff_of_nodup h.nodup List.nodup_range]
  intro i
  rw [h.mem_iff, hg.isActive, decide_eq_true_eq, List.mem_range]

/-- No node is left. -/
theorem isActive_eq_false (h : GreedyRun cost g p g') (i : Nat) : g'.isActive i = false := by
  induction h with
  | nil hnone => exact hnone i
  | cons _ _ _ ih => exact ih

theorem nnodes (h : GreedyRun cost g p g') : g'.nnodes = g.nnodes := by
  induction h with
  | nil _ => rfl
  | cons _ hstep _ ih => rw [ih, hstep.nnodes]

theorem sound (h : GreedyRun cost g p g') (hg : g.Sound) : g'.Sound := by
  induction h with
  | nil _ => exact hg
  | cons _ hstep _ ih => exact ih hstep.sound

end GreedyRun

/-- Every sound graph is answered with the nodes of such a run, and with what it leaves. -/
def Follows (cost : (Nat → List Nat) → Nat → Nat)
    (order : EliminationGraph → Outcome (List Nat × EliminationGraph)) : Prop :=
  ∀ g : EliminationGraph, g.Sound → ∃ p g', order g = .ok (p, g') ∧ GreedyRun cost g p g'

end EliminationGraph

end EliminationOrder

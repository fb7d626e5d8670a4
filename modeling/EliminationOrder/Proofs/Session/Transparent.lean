/-
Predictions can be made at any time.

A prediction gives what an elimination would give, and whoever uses the graph cannot see
that it was made.  What it leaves behind are scratch marks, so a session with predictions
put in between and the same session without them go through graphs with equal nodes
(`Same`).  One request keeps this, whichever it is (`Same.step`), and so does a prediction
that only one of the two sessions makes (`Same.predicted`); the rest is the induction over
lists of requests.
-/
import EliminationOrder.Proofs.Graph.SameNodes
import EliminationOrder.Session.Graph

namespace EliminationOrder

/-- What is seen of a graph from outside: its nodes with their lists, and its count. -/
def EliminationGraph.visible (g : EliminationGraph) : Array Node × Nat :=
  (g.nodes, g.nactive)

namespace GraphSession

open EliminationGraph Script

variable {s t : GraphSession}

/-- Two sessions that differ only in the scratch marks of their graphs. -/
structure Same (s t : GraphSession) : Prop where
  graph : SameNodes s.graph t.graph
  search : s.search = t.search

namespace Same

variable (hst : Same s t)

include hst

theorem visible_eq : s.graph.visible = t.graph.visible := by
  unfold visible
  rw [hst.graph.nodes, hst.graph.nactive_eq]

/-- A call on the graph that ends together does so as a request. -/
theorem call {α : Type} {x y : Outcome (α × EliminationGraph)} (hxy : EndTogether SameNodes x y)
    (answer : α → Answer) :
    EndTogether Same (x >>= fun r => pure (answer r.1, { s with graph := r.2 }))
      (y >>= fun r => pure (answer r.1, { t with graph := r.2 })) :=
  hxy.bind fun a _ _ hgh => EndTogether.ok (answer a) ⟨hgh, hst.search⟩

/-- **A request gives one answer in both sessions and leaves them the same.** -/
theorem step (r : Request) : EndTogether Same (s.step r) (t.step r) := by
  cases r with
  | eliminate n => exact hst.call (hst.graph.eliminate n) Answer.count
  | predictFill n => exact hst.call (hst.graph.predictFill n) Answer.count
  | minimumDegree => exact hst.call hst.graph.minimumDegree Answer.nodes
  | minimumFill => exact hst.call hst.graph.minimumFill Answer.nodes
  | fillIn p => exact hst.call (hst.graph.fillIn p) Answer.count
  | degree n => exact EndTogether.look hst (hst.graph.degree n) Answer.count
  | neighbors n => exact EndTogether.look hst (hst.graph.neighbors n) Answer.nodes
  | isEliminated n => exact EndTogether.look hst (hst.graph.isEliminated n) Answer.flag
  | check => exact EndTogether.look hst hst.graph.check fun _ => Answer.done
  | lists =>
      have hlists : s.graph.lists = t.graph.lists := by
        unfold EliminationGraph.lists
        rw [hst.graph.nnodes, hst.graph.adjacent]
      show EndTogether Same (.ok (Answer.lists s.graph.lists, s))
        (.ok (Answer.lists t.graph.lists, t))
      rw [hlists]
      exact EndTogether.ok _ hst
  | hopOrder decay maxHops =>
      refine EndTogether.bind_left (HopDegree.ofParameters decay maxHops) fun k => ?_
      exact EndTogether.look hst (HopDegree.order_eq_of_alike hst.graph.toAlike) Answer.nodes
  | histogram n decay maxHops =>
      refine EndTogether.bind_left (HopDegree.ofParameters decay maxHops) fun k => ?_
      show EndTogether Same (k.histogram s.graph n s.search >>= _)
        (k.histogram t.graph n t.search >>= _)
      rw [HopDegree.histogram_congr hst.graph.nodes, hst.search]
      exact EndTogether.bind_left _ fun _ => EndTogether.ok _ ⟨hst.graph, rfl⟩

/-- **A prediction that only the second session makes leaves them the same.** -/
theorem predicted (n : Nat) : Same s (settle t (t.step (.predictFill n))).2 := by
  show Same s (settle t (t.graph.predictFill n >>= fun r =>
    pure (Answer.count r.1, { t with graph := r.2 }))).2
  cases hpredict : t.graph.predictFill n with
  | error e => exact hst
  | ok r =>
      obtain ⟨k, g'⟩ := r
      obtain ⟨-, -, m, rfl, hready⟩ := withMarker_of_predictFill hst.graph.right hpredict
      exact ⟨hst.graph.withMarker hst.graph.left.ready hready, hst.search⟩

end Same

/--
**A prediction is exact and leaves no trace.**  For every active node of a reachable graph
it gives the number of edges that eliminating the node would create, which is the number of
pairs of different neighbors that are not joined, and changes neither nodes nor count.  In
any list of requests, with any predictions put in between, all other requests give what
they give without these, and the graph looks the same after each of them and at the end.
-/
theorem predictFill_exact_and_transparent :
    (∀ (g : EliminationGraph) (n : Nat), Reachable g → g.isActive n = true →
      ∃ k g' g'', g.predictFill n = .ok (k, g') ∧ g.eliminate n = .ok (k, g'') ∧
        k = (unjoinedPairs g.adjacent (g.adjacent n).toFinset).card ∧
        g'.visible = g.visible) ∧
    ∀ (s : GraphSession) (script : List (Request ⊕ Nat)), Reachable s.graph →
      (ownResults script (s.run (all Request.predictFill script))).map (Prod.map id visible)
          = (s.run (own script)).map (Prod.map id visible) ∧
        (final step s (all Request.predictFill script)).graph.visible
          = (final step s (own script)).graph.visible := by
  constructor
  · intro g n hg hn
    obtain ⟨m, hpredict, -⟩ := predictFill_ok hg.sound hn
    obtain ⟨g'', helim, -⟩ := eliminate_missing hg.sound hn
    exact ⟨_, _, g'', hpredict, helim, missing_eq_card hg.sound.valid n, rfl⟩
  · intro s script hs
    have hsame : Same s s := ⟨hs.sound.sameNodes, rfl⟩
    have hstep : ∀ s t r, Same s t → EndTogether Same (s.step r) (t.step r) :=
      fun _ _ r hst => hst.step r
    have hput : ∀ s t n, Same s t → Same s (settle t (t.step (.predictFill n))).2 :=
      fun _ _ n hst => hst.predicted n
    constructor
    · unfold run
      rw [ownResults_map, List.map_map, List.map_map]
      show (ownResults script (trace step s (all Request.predictFill script))).map
          (Prod.map id fun s => s.graph.visible)
        = (trace step s (own script)).map (Prod.map id fun s => s.graph.visible)
      exact ownResults_trace hstep hput (fun _ _ hst => hst.visible_eq) script hsame
    · exact (related_final hstep hput script hsame).visible_eq.symm

/-- On a path of four nodes, predictions before and after an elimination. -/
theorem predictFill_fourPath :
    let s := GraphSession.start fourPath
    let script : List (Request ⊕ Nat) :=
      [.inr 1, .inl (.eliminate 1), .inr 1, .inr 2, .inl (.neighbors 2), .inr 0]
    Reachable fourPath ∧ fourPath.isActive 1 = true ∧
      (∃ g' g'', fourPath.predictFill 1 = .ok (1, g') ∧ fourPath.eliminate 1 = .ok (1, g'')) ∧
      (ownResults script (s.run (all Request.predictFill script))).map Prod.fst
        = [.ok (.count 1), .ok (.nodes [3, 0])] := by
  intro s script
  obtain ⟨hexact, htransparent⟩ := predictFill_exact_and_transparent
  have hreach : Reachable fourPath := ⟨fourPath, built_fourPath, Calls.refl _⟩
  have hactive : fourPath.isActive 1 = true := rfl
  obtain ⟨k, g', g'', hpredict, helim, hk, -⟩ := hexact fourPath 1 hreach hactive
  have hone : k = 1 := by
    rw [hk]
    decide
  subst hone
  refine ⟨hreach, hactive, ⟨g', g'', hpredict, helim⟩, ?_⟩
  have hown : (s.run (own script)).map Prod.fst = [.ok (.count 1), .ok (.nodes [3, 0])] := by
    rfl
  have hsame := congrArg (List.map Prod.fst) (htransparent s script hreach).1
  rw [List.map_map, List.map_map] at hsame
  exact hsame.trans hown

end GraphSession

end EliminationOrder

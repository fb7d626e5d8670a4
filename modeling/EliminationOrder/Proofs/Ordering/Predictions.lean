/-
Predictions that outlive the graph they were made for.

A prediction of fill is used again after nodes have been eliminated.  `Cached` is the
invariant that makes that right: whatever is still predicted for an active node is what
eliminating it would create now.  An elimination can break it only near its node, and
`missing_eq_of_far` says how near: a node that was no neighbor, and is joined to none of
the neighbors afterwards, has the list it had, and so has everything on that list.
Those that are nearer are exactly the ones that `forgetAround` drops.

The rest is one lemma for each half of the bookkeeping, refreshing and forgetting.
-/
import EliminationOrder.Ordering.MinimumFill
import EliminationOrder.Proofs.Graph.Reachable
import EliminationOrder.Proofs.Ordering.Greedy

namespace EliminationOrder.MinimumFill

open EliminationGraph

variable {g g' : EliminationGraph} {n i : Nat} {costs : Predictions}

/-- The fill of a node, read off the lists. -/
def fillCost (adjacent : Nat → List Nat) (n : Nat) : Nat :=
  unjoined adjacent (adjacent n)

/-! ### How far an elimination reaches -/

theorem unjoined_congr {adjacent adjacent' : Nat → List Nat} :
    ∀ (l : List Nat), (∀ a ∈ l, adjacent' a = adjacent a) →
      unjoined adjacent' l = unjoined adjacent l := by
  intro l
  induction l with
  | nil => intro _; rfl
  | cons a later ih =>
      intro hsame
      rw [unjoined, unjoined, hsame a (by simp), ih fun b hb => hsame b (by simp [hb])]

/--
**An elimination changes the fill of its neighbors, and of what these are joined to
afterwards, and of no other node.**
-/
theorem missing_eq_of_far (hg : g.Valid) (hstep : Eliminated g n g') (hin : i ≠ n)
    (hi : i ∉ g.adjacent n) (hfar : ∀ m ∈ g.adjacent n, i ∉ g'.adjacent m) :
    g'.missing i = g.missing i := by
  have hsame : ∀ a, a ≠ n → a ∉ g.adjacent n → g'.adjacent a = g.adjacent a := by
    intro a han ha
    rw [hstep.adjacent, listAfter, if_neg han, if_neg ha]
  have hlists : ∀ a ∈ g.adjacent i, g'.adjacent a = g.adjacent a := by
    intro a ha
    have han : a ≠ n := by
      rintro rfl
      exact hi (hg.mem_comm.mp ha)
    refine hsame a han fun hc => hfar a hc ?_
    exact (hstep.mem_adjacent hg).mpr ⟨han, hin, hg.ne_of_mem ha, Or.inl (hg.mem_comm.mp ha)⟩
  rw [missing, missing, hsame i hin hi]
  exact unjoined_congr _ hlists

/-! ### The invariant -/

/-- Whatever is predicted for an active node is what eliminating it would create. -/
structure Cached (g : EliminationGraph) (costs : Predictions) : Prop where
  size : costs.size = g.nnodes
  exact : ∀ i c, g.isActive i = true → costs[i]? = some (some c) → c = g.missing i

theorem cached_withMarker {m : Marker} : Cached (g.withMarker m) costs ↔ Cached g costs :=
  ⟨fun h => ⟨h.size, h.exact⟩, fun h => ⟨h.size, h.exact⟩⟩

/-- Nothing is predicted at first. -/
theorem cached_none (g : EliminationGraph) : Cached g (Array.replicate g.nnodes none) := by
  refine ⟨by simp, ?_⟩
  intro i c _ hc
  simp [Array.getElem?_replicate] at hc

/-! ### Refreshing -/

theorem cached_set (hc : Cached g costs) (i : Nat) :
    Cached g (costs.setIfInBounds i (some (g.missing i))) := by
  refine ⟨by simpa using hc.size, ?_⟩
  intro j c hj hget
  by_cases hij : i = j
  · subst hij
    have hlt : i < costs.size := by rw [hc.size]; exact lt_of_isActive hj
    have : g.missing i = c := by simpa [hlt] using hget
    exact this.symm
  · rw [Array.getElem?_setIfInBounds_ne hij] at hget
    exact hc.exact j c hj hget

/-- Refreshing predicts for the active nodes of a list, and keeps what was predicted. -/
theorem refresh_ok (is : List Nat) :
    ∀ {g : EliminationGraph} {costs : Predictions}, g.Sound → Cached g costs →
      ∃ costs' m, refresh g costs is = .ok (costs', g.withMarker m) ∧
        Marker.Ready g.nnodes m ∧ Cached g costs' ∧
        (∀ (i c : Nat), costs[i]? = some (some c) → costs'[i]? = some (some c)) ∧
        ∀ i ∈ is, g.isActive i = true → costs'[i]? = some (some (g.missing i)) := by
  induction is with
  | nil =>
      intro g costs hg hc
      exact ⟨costs, g.marker, rfl, hg.ready, hc, fun _ _ h => h, by simp⟩
  | cons i is ih =>
      intro g costs hg hc
      by_cases hstale : (g.isActive i && (costs[i]?.getD none).isNone) = true
      · obtain ⟨hi, hnone⟩ := Bool.and_eq_true_iff.mp hstale
        obtain ⟨m₁, hpredict, hready₁⟩ := predictFill_ok hg hi
        have hlt : i < costs.size := by rw [hc.size]; exact lt_of_isActive hi
        obtain ⟨costs', m, hrefresh, hready, hc', hkeep, hfresh⟩ :=
          ih (hg.withMarker hready₁) (cached_withMarker.mpr (cached_set hc i))
        refine ⟨costs', m, ?_, hready, cached_withMarker.mp hc', ?_, ?_⟩
        · rw [refresh, if_pos hstale, hpredict, Outcome.ok_bind]
          exact hrefresh
        · intro j c hj
          refine hkeep j c ?_
          by_cases hij : i = j
          · subst hij
            simp [hj] at hnone
          · rw [Array.getElem?_setIfInBounds_ne hij]
            exact hj
        · intro j hj hactive
          rcases List.mem_cons.mp hj with rfl | hj
          · exact hkeep j _ (by simp [hlt])
          · exact hfresh j hj hactive
      · obtain ⟨costs', m, hrefresh, hready, hc', hkeep, hfresh⟩ := ih hg hc
        refine ⟨costs', m, ?_, hready, hc', hkeep, ?_⟩
        · rw [refresh, if_neg hstale]
          exact hrefresh
        · intro j hj hactive
          rcases List.mem_cons.mp hj with rfl | hj
          · -- It was predicted before, and rightly.
            have hlt : j < costs.size := by rw [hc.size]; exact lt_of_isActive hactive
            cases hget : costs[j] with
            | none => simp [hactive, hlt, hget] at hstale
            | some c =>
                have hsome : costs[j]? = some (some c) := by
                  rw [Array.getElem?_eq_getElem hlt, hget]
                rw [← hc.exact j c hactive hsome]
                exact hkeep j c hsome
          · exact hfresh j hj hactive

/-! ### Forgetting -/

theorem forget_ok (is : List Nat) :
    ∀ {costs : Predictions}, (∀ i ∈ is, i < costs.size) →
      ∃ costs', forget costs is = .ok costs' ∧ costs'.size = costs.size ∧
        ∀ j c, costs'[j]? = some (some c) → costs[j]? = some (some c) ∧ j ∉ is := by
  induction is with
  | nil =>
      intro costs _
      exact ⟨costs, rfl, rfl, fun _ _ h => ⟨h, by simp⟩⟩
  | cons i is ih =>
      intro costs hlt
      have hi : i < costs.size := hlt i (by simp)
      have hlt' : ∀ j ∈ is, j < (costs.setIfInBounds i none).size := by
        intro j hj
        simpa using hlt j (by simp [hj])
      obtain ⟨costs', hforget, hsize, hleft⟩ := ih hlt'
      refine ⟨costs', by rw [forget, if_pos hi, hforget], by simpa using hsize, ?_⟩
      intro j c hj
      obtain ⟨hold, hnot⟩ := hleft j c hj
      by_cases hij : i = j
      · subst hij
        simp [hi] at hold
      · rw [Array.getElem?_setIfInBounds_ne hij] at hold
        have hji : j ≠ i := fun hc => hij hc.symm
        exact ⟨hold, by simp [hnot, hji]⟩

theorem forgetAround_ok (ms : List Nat) :
    ∀ {costs : Predictions}, (∀ m ∈ ms, m < costs.size) →
      (∀ m ∈ ms, ∀ x ∈ g.adjacent m, x < costs.size) →
      ∃ costs', forgetAround g costs ms = .ok costs' ∧ costs'.size = costs.size ∧
        ∀ j c, costs'[j]? = some (some c) →
          costs[j]? = some (some c) ∧ j ∉ ms ∧ ∀ m ∈ ms, j ∉ g.adjacent m := by
  induction ms with
  | nil =>
      intro costs _ _
      exact ⟨costs, rfl, rfl, fun _ _ h => ⟨h, by simp, by simp⟩⟩
  | cons m ms ih =>
      intro costs hms hlists
      have hlt : ∀ i ∈ m :: g.adjacent m, i < costs.size := by
        intro i hi
        rcases List.mem_cons.mp hi with rfl | hi
        · exact hms i (by simp)
        · exact hlists m (by simp) i hi
      obtain ⟨costs₁, hforget, hsize₁, hleft₁⟩ := forget_ok _ hlt
      have hms₁ : ∀ i ∈ ms, i < costs₁.size := by
        intro i hi
        rw [hsize₁]
        exact hms i (by simp [hi])
      have hlists₁ : ∀ i ∈ ms, ∀ x ∈ g.adjacent i, x < costs₁.size := by
        intro i hi x hx
        rw [hsize₁]
        exact hlists i (by simp [hi]) x hx
      obtain ⟨costs₂, haround, hsize₂, hleft₂⟩ := ih hms₁ hlists₁
      refine ⟨costs₂, by rw [forgetAround, hforget, Outcome.ok_bind, haround],
        hsize₂.trans hsize₁, ?_⟩
      intro j c hj
      obtain ⟨hj₁, hjms, hjlists⟩ := hleft₂ j c hj
      obtain ⟨hj₀, hjm⟩ := hleft₁ j c hj₁
      obtain ⟨hjm, hjlist⟩ := not_or.mp (fun hc => hjm (List.mem_cons.mpr hc))
      refine ⟨hj₀, by simp [hjm, hjms], ?_⟩
      intro i hi
      rcases List.mem_cons.mp hi with rfl | hi
      · exact hjlist
      · exact hjlists i hi

/-- What is not forgotten is still right once `n` is eliminated. -/
theorem cached_of_far (hg : g.Valid) (hc : Cached g costs) (hstep : Eliminated g n g')
    {costs' : Predictions} (hsize : costs'.size = costs.size)
    (hleft : ∀ j c, costs'[j]? = some (some c) →
      costs[j]? = some (some c) ∧ j ∉ g.adjacent n ∧ ∀ m ∈ g.adjacent n, j ∉ g'.adjacent m) :
    Cached g' costs' := by
  refine ⟨by rw [hsize, hc.size, hstep.nnodes], ?_⟩
  intro j c hj hget
  obtain ⟨hold, hnear, hfar⟩ := hleft j c hget
  rw [hstep.isActive, Bool.and_eq_true, bne_iff_ne] at hj
  rw [missing_eq_of_far hg hstep hj.1 hnear hfar]
  exact hc.exact j c hj.2 hold

end EliminationOrder.MinimumFill

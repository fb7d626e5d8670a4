/-
The fill of one elimination, three times over.

Eliminating a node counts the entries its neighbors gain and halves the sum; predicting
its fill counts, at each neighbor, the later ones it is not joined to; and the fill
itself is the number of pairs of neighbors that are not joined.  All three agree on a
valid graph.  `unjoined` is the count the prediction makes, `gains_eq` shows that the
halved sum is exact because every new edge is gained at both of its ends, and
`unjoined_eq_card` identifies the count with the set of pairs.
-/
import EliminationOrder.Proofs.Graph.Elimination
import Mathlib.Data.Finset.Prod
import Mathlib.Algebra.BigOperators.Group.List.Basic

namespace EliminationOrder.EliminationGraph

variable {g g' : EliminationGraph} {n : Nat}

/-- The pairs of entries of a list that are not joined, each counted at its earlier entry. -/
def unjoined (adjacent : Nat → List Nat) : List Nat → Nat
  | [] => 0
  | a :: later =>
    (later.filter fun b => !(adjacent a).contains b).length + unjoined adjacent later

/-- The edges missing between the neighbors of `n`. -/
def missing (g : EliminationGraph) (n : Nat) : Nat :=
  unjoined g.adjacent (g.adjacent n)

@[simp] theorem missing_withMarker (m : Marker) : (g.withMarker m).missing n = g.missing n := rfl

/-! ### The prediction -/

theorem countUnjoined_ok (is : List Nat) :
    ∀ {g : EliminationGraph}, g.Sound → (∀ i ∈ is, i < g.nnodes) →
      ∃ m, g.countUnjoined is = .ok (unjoined g.adjacent is, g.withMarker m) ∧
        Marker.Ready g.nnodes m := by
  induction is with
  | nil =>
      intro g hg _
      exact ⟨g.marker, rfl, hg.ready⟩
  | cons a later ih =>
      intro g hg hlt
      obtain ⟨m₁, hmark, hready₁, hc₁⟩ := Marker.markAll_ok (g.adjacent a)
        (Marker.advance_ready hg.ready) (fun x hx => hg.valid.lt_of_mem hx)
      have hmissing := Marker.unmarked_eq hready₁ later (fun x hx => hlt x (by simp [hx]))
      have hfilter : (later.filter fun b => !m₁.contains b)
          = later.filter fun b => !(g.adjacent a).contains b := by
        refine List.filter_congr fun b _ => ?_
        simp [hc₁, Marker.contains_advance hg.ready]
      obtain ⟨m₂, hrest, hready₂⟩ := ih (hg.withMarker hready₁) (fun i hi => hlt i (by simp [hi]))
      refine ⟨m₂, ?_, hready₂⟩
      simp only [countUnjoined, neighbors_eq (hlt a (by simp)), Outcome.ok_bind, hmark, hmissing,
        hfilter]
      rw [show ({ g with marker := m₁ } : EliminationGraph) = g.withMarker m₁ from rfl, hrest]
      rfl

/-- **The prediction answers, and changes nothing but the scratch marks.** -/
theorem predictFill_ok (hg : g.Sound) (hn : g.isActive n = true) :
    ∃ m, g.predictFill n = .ok (g.missing n, g.withMarker m) ∧
      Marker.Ready g.nnodes m := by
  obtain ⟨m, hcount, hready⟩ :=
    countUnjoined_ok (g.adjacent n) hg (fun i hi => hg.valid.lt_of_mem hi)
  exact ⟨m, by simp [predictFill, activeNeighbors_eq hn, hcount, missing], hready⟩

/-! ### The halved sum

The sum over a list of what each entry gains from the list is twice the count of pairs:
the first entry gains the later ones that it is not joined to, and each of these gains
the first.
-/

private theorem sum_map_ite (p : Nat → Bool) (l : List Nat) :
    (l.map fun x => if p x then 1 else 0).sum = (l.filter p).length := by
  induction l with
  | nil => rfl
  | cons a l ih =>
      rw [List.map_cons, List.sum_cons, ih]
      cases h : p a with
      | true => simp [h, Nat.add_comm]
      | false => simp [h]

section Symmetric

variable {adjacent : Nat → List Nat} (hsymm : ∀ a b, b ∈ adjacent a ↔ a ∈ adjacent b)

include hsymm

theorem sum_gained {l : List Nat} (hl : l.Nodup) :
    (l.map fun m => (gained l m (adjacent m)).length).sum = 2 * unjoined adjacent l := by
  induction l with
  | nil => rfl
  | cons a l ih =>
      obtain ⟨ha, hl'⟩ := List.nodup_cons.mp hl
      have hfirst : gained (a :: l) a (adjacent a)
          = l.filter fun b => !(adjacent a).contains b := by
        simp only [gained, List.filter_cons, bne_self_eq_false, Bool.false_and, Bool.false_eq_true,
          if_false]
        refine List.filter_congr fun b hb => ?_
        have hba : b ≠ a := fun hc => ha (hc ▸ hb)
        simp [hba]
      have hlater : ∀ m ∈ l, (gained (a :: l) m (adjacent m)).length
          = (if !(adjacent a).contains m then 1 else 0) + (gained l m (adjacent m)).length := by
        intro m hm
        have ham : a ≠ m := fun hc => ha (hc ▸ hm)
        by_cases hj : m ∈ adjacent a
        · simp [gained, hj, (hsymm a m).mp hj]
        · have hj' : a ∉ adjacent m := fun hc => hj ((hsymm a m).mpr hc)
          simp [gained, ham, hj, hj']
          omega
      rw [List.map_cons, List.sum_cons, hfirst, List.map_congr_left hlater, List.sum_map_add,
        sum_map_ite, ih hl', unjoined]
      omega

end Symmetric

theorem gains_eq (hg : g.Valid) (n : Nat) : g.gains n = 2 * g.missing n :=
  sum_gained (fun _ _ => hg.mem_comm) (hg.nodup_adjacent n)

/-- **Eliminating a node creates the edges that were missing between its neighbors.** -/
theorem eliminate_missing (hg : g.Sound) (hn : g.isActive n = true) :
    ∃ g', g.eliminate n = .ok (g.missing n, g') ∧ Eliminated g n g' := by
  obtain ⟨g', helim, h⟩ := eliminate_ok hg hn
  refine ⟨g', ?_, h⟩
  rw [helim, gains_eq hg.valid, Nat.mul_div_cancel_left _ (by omega)]

/-- What an elimination that answered has counted and done. -/
theorem missing_of_eliminate {k : Nat} (hg : g.Sound) (h : g.eliminate n = .ok (k, g')) :
    k = g.missing n ∧ Eliminated g n g' := by
  obtain ⟨g₁, hok, hstep⟩ := eliminate_missing hg (isActive_of_eliminate h)
  rw [h] at hok
  obtain ⟨rfl, rfl⟩ := Outcome.ok_pair_inj.mp hok
  exact ⟨rfl, hstep⟩

/-! ### The set of pairs -/

/-- A pair that is put in order still tells which node is in it with `n`. -/
theorem injective_ordered (n : Nat) : Function.Injective fun m => (min n m, max n m) := by
  intro b c h
  simp only [Prod.mk.injEq] at h
  omega

/-- The pairs of different entries of `s` that are not joined, the smaller entry first. -/
def unjoinedPairs (adjacent : Nat → List Nat) (s : Finset Nat) : Finset (Nat × Nat) :=
  (s ×ˢ s).filter fun p => p.1 < p.2 ∧ p.2 ∉ adjacent p.1

theorem mem_unjoinedPairs {adjacent : Nat → List Nat} {s : Finset Nat} {a b : Nat} :
    (a, b) ∈ unjoinedPairs adjacent s ↔ a ∈ s ∧ b ∈ s ∧ a < b ∧ b ∉ adjacent a := by
  simp [unjoinedPairs, and_assoc]

section Symmetric

variable {adjacent : Nat → List Nat} (hsymm : ∀ a b, b ∈ adjacent a ↔ a ∈ adjacent b)

include hsymm

/-- One more entry adds a pair for each entry it is not joined to. -/
theorem card_unjoinedPairs_insert {a : Nat} {s : Finset Nat} (ha : a ∉ s) :
    (unjoinedPairs adjacent (insert a s)).card
      = (s.filter fun b => b ∉ adjacent a).card + (unjoinedPairs adjacent s).card := by
  set new := (s.filter fun b => b ∉ adjacent a).image fun b => (min a b, max a b) with hnew
  have hsplit : unjoinedPairs adjacent (insert a s) = new ∪ unjoinedPairs adjacent s := by
    ext ⟨x, y⟩
    simp only [hnew, Finset.mem_union, Finset.mem_image, Finset.mem_filter, mem_unjoinedPairs,
      Finset.mem_insert, Prod.mk.injEq]
    constructor
    · intro h
      obtain ⟨hx, hy, hlt, hj⟩ := h
      rcases hx with rfl | hx <;> rcases hy with rfl | hy
      · omega
      · exact Or.inl ⟨y, ⟨hy, hj⟩, by omega, by omega⟩
      · exact Or.inl ⟨x, ⟨hx, fun hc => hj ((hsymm _ _).mp hc)⟩, by omega, by omega⟩
      · exact Or.inr ⟨hx, hy, hlt, hj⟩
    · intro h
      rcases h with ⟨b, ⟨hb, hj⟩, rfl, rfl⟩ | ⟨hx, hy, hlt, hj⟩
      · have hab : a ≠ b := fun hc => ha (hc ▸ hb)
        rcases Nat.lt_or_gt_of_ne hab with hlt | hlt
        · rw [Nat.min_eq_left hlt.le, Nat.max_eq_right hlt.le]
          exact ⟨Or.inl rfl, Or.inr hb, hlt, hj⟩
        · rw [Nat.min_eq_right hlt.le, Nat.max_eq_left hlt.le]
          exact ⟨Or.inr hb, Or.inl rfl, hlt, fun hc => hj ((hsymm _ _).mp hc)⟩
      · exact ⟨Or.inr hx, Or.inr hy, hlt, hj⟩
  have hdisjoint : Disjoint new (unjoinedPairs adjacent s) := by
    rw [Finset.disjoint_left]
    rintro ⟨x, y⟩ hxy hold
    obtain ⟨hx, hy, -, -⟩ := mem_unjoinedPairs.mp hold
    simp only [hnew, Finset.mem_image, Prod.mk.injEq] at hxy
    obtain ⟨b, -, rfl, rfl⟩ := hxy
    rcases Nat.le_total a b with hle | hle
    · rw [Nat.min_eq_left hle] at hx
      exact ha hx
    · rw [Nat.max_eq_left hle] at hy
      exact ha hy
  rw [hsplit, Finset.card_union_of_disjoint hdisjoint,
    Finset.card_image_of_injective _ (injective_ordered a)]

theorem unjoined_eq_card {l : List Nat} (hl : l.Nodup) :
    unjoined adjacent l = (unjoinedPairs adjacent l.toFinset).card := by
  induction l with
  | nil => simp [unjoined, unjoinedPairs]
  | cons a l ih =>
      obtain ⟨ha, hl'⟩ := List.nodup_cons.mp hl
      have hfilter : (l.filter fun b => !(adjacent a).contains b).length
          = (l.toFinset.filter fun b => b ∉ adjacent a).card := by
        rw [← List.toFinset_card_of_nodup (hl'.filter _), List.toFinset_filter]
        congr 1
        ext b
        simp
      rw [unjoined, ih hl', List.toFinset_cons, card_unjoinedPairs_insert hsymm (by simpa using ha),
        hfilter]

end Symmetric

/-- The edges missing between the neighbors of `n`, as a set. -/
theorem missing_eq_card (hg : g.Valid) (n : Nat) :
    g.missing n = (unjoinedPairs g.adjacent (g.adjacent n).toFinset).card :=
  unjoined_eq_card (fun _ _ => hg.mem_comm) (hg.nodup_adjacent n)

end EliminationOrder.EliminationGraph

/-
Paths with their interior in a given set.

`PathThrough` is a path in the strict sense: a list of nodes, none met twice, each joined
to the next.  `Walk` is easier to build and to take apart, one edge at a time, and may
meet a node as often as it likes.  `pathThrough_iff_walk` says that between two different
nodes outside the set it makes no difference, since a walk that comes back to a node can
skip the way round.

The last group is the step that elimination takes: a walk that may also pass through `n`
is a walk in the graph where the neighbors of `n` have been joined and `n` is gone.
-/
import Mathlib.Data.List.Chain
import Mathlib.Data.List.Nodup

namespace EliminationOrder

variable {joined : Nat → Nat → Prop} {inside : Nat → Prop} {u v n : Nat}

/-- A path from `u` to `v`, no node of which is met twice, with all interior nodes inside. -/
def PathThrough (joined : Nat → Nat → Prop) (inside : Nat → Prop) (u v : Nat) : Prop :=
  ∃ interior : List Nat, (∀ w ∈ interior, inside w) ∧ (u :: (interior ++ [v])).Nodup ∧
    (u :: (interior ++ [v])).IsChain joined

/-- A walk from `u` to `v` with all interior nodes inside. -/
inductive Walk (joined : Nat → Nat → Prop) (inside : Nat → Prop) : Nat → Nat → Prop
  | edge {u v : Nat} (h : joined u v) : Walk joined inside u v
  | step {u w v : Nat} (h : joined u w) (hw : inside w) (hrest : Walk joined inside w v) :
      Walk joined inside u v

/-! ### Walks and paths -/

theorem walk_of_isChain (interior : List Nat) :
    ∀ {u : Nat}, (∀ w ∈ interior, inside w) → (u :: (interior ++ [v])).IsChain joined →
      Walk joined inside u v := by
  induction interior with
  | nil =>
      intro u _ hchain
      exact Walk.edge (by simpa using hchain)
  | cons w interior ih =>
      intro u hinside hchain
      obtain ⟨huw, hrest⟩ := List.isChain_cons_cons.mp hchain
      exact Walk.step huw (hinside w (by simp)) (ih (fun x hx => hinside x (by simp [hx])) hrest)

/-- A walk to a node outside has a way without repetitions; its start may still be met again. -/
theorem Walk.exists_interior (h : Walk joined inside u v) (hv : ¬ inside v) :
    ∃ interior : List Nat, (∀ w ∈ interior, inside w) ∧ (interior ++ [v]).Nodup ∧
      (u :: (interior ++ [v])).IsChain joined := by
  induction h with
  | edge h => exact ⟨[], by simp, by simp, by simpa using h⟩
  | @step u w v huw hw _ ih =>
      obtain ⟨interior, hinside, hnodup, hchain⟩ := ih hv
      by_cases hmem : w ∈ interior
      · -- The rest comes back to `w`: go on from there.
        obtain ⟨before, after, rfl⟩ := List.append_of_mem hmem
        have hsplit : before ++ w :: after ++ [v] = before ++ (w :: after ++ [v]) := by simp
        rw [hsplit] at hnodup hchain
        refine ⟨w :: after, fun x hx => hinside x (by simp [List.mem_cons.mp hx]),
          (List.nodup_append.mp hnodup).2.1, ?_⟩
        rw [← List.cons_append] at hchain
        exact List.isChain_cons_cons.mpr ⟨huw, hchain.right_of_append⟩
      · have hwv : w ≠ v := fun hc => hv (hc ▸ hw)
        refine ⟨w :: interior, ?_, ?_, List.isChain_cons_cons.mpr ⟨huw, hchain⟩⟩
        · intro x hx
          rcases List.mem_cons.mp hx with rfl | hx
          · exact hw
          · exact hinside x hx
        · rw [List.cons_append, List.nodup_cons]
          exact ⟨by simp [hmem, hwv], hnodup⟩

/-- **Between different nodes outside the set, a walk can be made a path.** -/
theorem pathThrough_iff_walk (huv : u ≠ v) (hu : ¬ inside u) (hv : ¬ inside v) :
    PathThrough joined inside u v ↔ Walk joined inside u v := by
  constructor
  · intro h
    obtain ⟨interior, hinside, -, hchain⟩ := h
    exact walk_of_isChain interior hinside hchain
  · intro h
    obtain ⟨interior, hinside, hnodup, hchain⟩ := h.exists_interior hv
    refine ⟨interior, hinside, List.nodup_cons.mpr ⟨?_, hnodup⟩, hchain⟩
    intro hmem
    rcases List.mem_append.mp hmem with hi | hi
    · exact hu (hinside u hi)
    · exact huv (List.mem_singleton.mp hi)

theorem Walk.imp {joined' : Nat → Nat → Prop} {inside' : Nat → Prop}
    (h : Walk joined inside u v) (hjoined : ∀ a b, joined a b → joined' a b)
    (hinside : ∀ w, inside w → inside' w) : Walk joined' inside' u v := by
  induction h with
  | edge h => exact Walk.edge (hjoined _ _ h)
  | step h hw _ ih => exact Walk.step (hjoined _ _ h) (hinside _ hw) ih

/-- With nothing inside, a walk is an edge. -/
theorem walk_iff_of_forall_not (hnone : ∀ w, ¬ inside w) :
    Walk joined inside u v ↔ joined u v := by
  constructor
  · intro h
    cases h with
    | edge h => exact h
    | step _ hw _ => exact absurd hw (hnone _)
  · exact Walk.edge

/-! ### Taking a node out

Walks in the graph without `n`, where its neighbors are joined to each other, are the
walks that may pass through `n`: an edge that came from `n` is spliced open at `n`, and
a visit to `n` is cut short.
-/

section Splice

variable {joined' : Nat → Nat → Prop}
  (hjoined' : ∀ a b, joined' a b ↔
    a ≠ n ∧ b ≠ n ∧ a ≠ b ∧ (joined a b ∨ (joined n a ∧ joined n b)))
  (hsymm : ∀ a b, joined a b → joined b a)

include hjoined' hsymm

theorem Walk.splice (h : Walk joined' inside u v) :
    Walk joined (fun w => w = n ∨ inside w) u v := by
  induction h with
  | @edge u v h =>
      obtain ⟨-, -, -, hold | ⟨hu, hv⟩⟩ := (hjoined' u v).mp h
      · exact Walk.edge hold
      · exact Walk.step (hsymm n u hu) (Or.inl rfl) (Walk.edge hv)
  | @step u w v h hw _ ih =>
      obtain ⟨-, -, -, hold | ⟨hu, hw'⟩⟩ := (hjoined' u w).mp h
      · exact Walk.step hold (Or.inr hw) ih
      · exact Walk.step (hsymm n u hu) (Or.inl rfl) (Walk.step hw' (Or.inr hw) ih)

/--
The way back.  The induction also has to follow the walk from `n` itself; what it keeps
there is a walk from any neighbor that `n` could have been entered from.
-/
theorem Walk.shortcut (hloop : ∀ a, ¬ joined a a) (hv : v ≠ n)
    (h : Walk joined (fun w => w = n ∨ inside w) u v) :
    (u ≠ n → u ≠ v → Walk joined' inside u v) ∧
      (u = n → ∀ x, x ≠ n → x ≠ v → joined n x → Walk joined' inside x v) := by
  induction h with
  | @edge u v h =>
      constructor
      · intro hu huv
        exact Walk.edge ((hjoined' u v).mpr ⟨hu, hv, huv, Or.inl h⟩)
      · intro hun x hx hxv hnx
        subst hun
        exact Walk.edge ((hjoined' x v).mpr ⟨hx, hv, hxv, Or.inr ⟨hnx, h⟩⟩)
  | @step u w v h hw _ ih =>
      obtain ⟨ihother, ihn⟩ := ih hv
      -- From a node that is joined to `w` in the smaller graph, the rest of the walk follows.
      have hfrom : ∀ x, x ≠ v → w ≠ n → (x ≠ w → joined' x w) → Walk joined' inside x v := by
        intro x hxv hwn hxw
        by_cases hwv : w = v
        · rw [← hwv]
          exact Walk.edge (hxw (hwv.symm ▸ hxv))
        · have hrest := ihother hwn hwv
          have hinside : inside w := by
            rcases hw with hw | hw
            · exact absurd hw hwn
            · exact hw
          by_cases hx : x = w
          · rw [hx]
            exact hrest
          · exact Walk.step (hxw hx) hinside hrest
      constructor
      · intro hu huv
        by_cases hwn : w = n
        · subst hwn
          exact ihn rfl u hu huv (hsymm u w h)
        · exact hfrom u huv hwn fun huw => (hjoined' u w).mpr ⟨hu, hwn, huw, Or.inl h⟩
      · intro hun x hx hxv hnx
        subst hun
        have hwn : w ≠ u := fun hc => hloop u (hc ▸ h)
        exact hfrom x hxv hwn fun hxw => (hjoined' x w).mpr ⟨hx, hwn, hxw, Or.inr ⟨hnx, h⟩⟩

/-- **Passing through a node is being joined by its elimination.** -/
theorem walk_splice_iff (hloop : ∀ a, ¬ joined a a) (huv : u ≠ v) (hu : u ≠ n) (hv : v ≠ n) :
    Walk joined' inside u v ↔ Walk joined (fun w => w = n ∨ inside w) u v :=
  ⟨Walk.splice hjoined' hsymm,
    fun h => (Walk.shortcut hjoined' hsymm hloop hv h).1 hu huv⟩

end Splice

end EliminationOrder

/-
What a marker means.

A marker in use holds a set of numbers, and each of its operations is an operation on
that set.  `contains` is the set, and `Ready n` is the invariant that makes the stamps
trustworthy: there is one for each number below `n`, none is newer than the current
generation, and the generation is one that words can count.  A stamp that is not newer
than the current generation cannot equal the next one, which is why starting a
generation empties the set, whatever earlier uses left behind; and when the generations
run out, all stamps are older than the first new one.

From this follow the list operations that the graph uses.  `markAll` adds a list,
`unmarked` is a filter, and `claim` keeps the first occurrences of what was missing.

`dedup` does its work in the list that it reads.  The position it writes to falls behind the
one it reads from with every repetition, but never overtakes it, so what is still to be read
is always as it was; that carries the induction of `compact_eq_claim`, by which moving to the
front is claiming.
-/
import EliminationOrder.Marker
import EliminationOrder.Proofs.FirstOccurrences
import Mathlib.Data.List.Basic

namespace EliminationOrder.Marker

variable {n : Nat} {m : Marker}

/-- Whether `i` carries the stamp of the current generation. -/
def contains (m : Marker) (i : Nat) : Bool :=
  m.stamps[i]? == some m.generation

/-- A marker for the numbers below `n` that has no stamp from the future. -/
structure Ready (n : Nat) (m : Marker) : Prop where
  size : m.stamps.size = n
  stamp_le : ∀ (i stamp : Nat), m.stamps[i]? = some stamp → stamp ≤ m.generation
  generation_le : m.generation ≤ lastGeneration

/-- Only numbers below the size are ever in the set. -/
theorem Ready.lt_of_contains (h : Ready n m) {i : Nat} (hi : m.contains i = true) : i < n := by
  rw [← h.size]
  by_contra hc
  simp [contains, Nat.not_lt.mp hc] at hi

theorem fresh_ready (n : Nat) : Ready n (fresh n) := by
  refine ⟨by simp [fresh], ?_, by simp [fresh]⟩
  intro i stamp h
  have hlt : i < n := by
    by_contra hc
    simp [fresh, Nat.not_lt.mp hc] at h
  simp [fresh, hlt] at h
  omega

/-! ### One number at a time -/

theorem advance_ready (h : Ready n m) : Ready n m.advance := by
  unfold advance
  split
  · refine ⟨by simp [h.size], ?_, by simp [lastGeneration]⟩
    intro i stamp hs
    simp only [Array.getElem?_replicate, Option.ite_none_right_eq_some] at hs
    have : 0 = stamp := by simpa using hs.2
    show stamp ≤ 1
    omega
  · rename_i hlast
    refine ⟨h.size, ?_, ?_⟩
    · intro i stamp hs
      exact Nat.le_succ_of_le (h.stamp_le i stamp hs)
    · have := h.generation_le
      show m.generation + 1 ≤ lastGeneration
      omega

/-- **A new generation starts with nothing marked.** -/
theorem contains_advance (h : Ready n m) (i : Nat) : m.advance.contains i = false := by
  unfold advance contains
  split
  · -- All stamps are zero now, and the generation is one.
    by_cases hi : i < m.stamps.size
    · simp [hi]
    · simp [Nat.not_lt.mp hi]
  · cases hs : m.stamps[i]? with
    | none => simp
    | some stamp =>
        have := h.stamp_le i stamp hs
        simp
        omega

theorem isMarked_eq (h : Ready n m) {i : Nat} (hi : i < n) :
    m.isMarked i = .ok (m.contains i) := by
  have hi' : i < m.stamps.size := by rw [h.size]; exact hi
  simp [isMarked, contains, Array.getElem?_eq_getElem hi']

theorem mark_ok (h : Ready n m) {i : Nat} (hi : i < n) :
    ∃ m', m.mark i = .ok m' ∧ Ready n m' ∧ ∀ j, m'.contains j = (j == i || m.contains j) := by
  have hi' : i < m.stamps.size := by rw [h.size]; exact hi
  refine ⟨_, if_pos hi', ⟨by simp [h.size], ?_, h.generation_le⟩, ?_⟩
  · intro j stamp hs
    by_cases hji : i = j
    · subst hji
      have : m.generation = stamp := by simpa [hi'] using hs
      exact Nat.le_of_eq this.symm
    · exact h.stamp_le j stamp (by simpa [Array.getElem?_setIfInBounds_ne hji] using hs)
  · intro j
    by_cases hji : i = j
    · subst hji
      simp [contains, hi']
    · have hne : (j == i) = false := by simpa using fun hc => hji hc.symm
      simp [contains, Array.getElem?_setIfInBounds_ne hji, hne]

/-! ### Lists -/

theorem markAll_ok (is : List Nat) :
    ∀ {m : Marker}, Ready n m → (∀ i ∈ is, i < n) →
      ∃ m', m.markAll is = .ok m' ∧ Ready n m' ∧
        ∀ j, m'.contains j = (is.contains j || m.contains j) := by
  induction is with
  | nil =>
      intro m h _
      exact ⟨m, rfl, h, by simp⟩
  | cons i is ih =>
      intro m h hlt
      obtain ⟨m₁, hmark, h₁, hc₁⟩ := mark_ok h (hlt i (by simp))
      obtain ⟨m₂, hall, h₂, hc₂⟩ := ih h₁ (fun j hj => hlt j (by simp [hj]))
      refine ⟨m₂, by rw [markAll, hmark]; exact hall, h₂, ?_⟩
      intro j
      rw [hc₂, hc₁, List.contains_cons]
      cases is.contains j <;> simp

theorem unmarked_eq (h : Ready n m) :
    ∀ (is : List Nat), (∀ i ∈ is, i < n) →
      m.unmarked is = .ok (is.filter fun i => !m.contains i) := by
  intro is
  induction is with
  | nil => intro _; rfl
  | cons i is ih =>
      intro hlt
      rw [unmarked, isMarked_eq h (hlt i (by simp)), Outcome.ok_bind,
        ih (fun j hj => hlt j (by simp [hj]))]
      cases hc : m.contains i <;> simp [hc]

/-- **Claiming keeps the first occurrences of what is not marked yet.** -/
theorem claim_ok (is : List Nat) :
    ∀ {m : Marker}, Ready n m → (∀ i ∈ is, i < n) →
      ∃ m', m.claim is = .ok ((is.filter fun i => !m.contains i).eraseDups, m') ∧ Ready n m' ∧
        ∀ j, m'.contains j = (is.contains j || m.contains j) := by
  induction is with
  | nil =>
      intro m h _
      exact ⟨m, rfl, h, by simp⟩
  | cons i is ih =>
      intro m h hlt
      have hlt' : ∀ j ∈ is, j < n := fun j hj => hlt j (by simp [hj])
      rw [claim, isMarked_eq h (hlt i (by simp)), Outcome.ok_bind]
      cases hi : m.contains i with
      | true =>
          obtain ⟨m', hclaim, h', hc'⟩ := ih h hlt'
          refine ⟨m', by simpa [hi] using hclaim, h', ?_⟩
          intro j
          rw [hc', List.contains_cons]
          by_cases hji : j = i
          · simp [hji, hi]
          · have hne : (j == i) = false := by simpa using hji
            simp [hne]
      | false =>
          obtain ⟨m₁, hmark, h₁, hc₁⟩ := mark_ok h (hlt i (by simp))
          obtain ⟨m₂, hclaim, h₂, hc₂⟩ := ih h₁ hlt'
          refine ⟨m₂, ?_, h₂, ?_⟩
          · -- What is missing after `i` is marked is what was missing, without `i`.
            have hrest : (is.filter fun j => !m₁.contains j)
                = (is.filter fun j => !m.contains j).filter fun j => !j == i := by
              rw [List.filter_filter]
              refine List.filter_congr fun j _ => ?_
              rw [hc₁, Bool.not_or]
            simp [hmark, hclaim, hi, List.eraseDups_cons, hrest]
          · intro j
            rw [hc₂, hc₁, List.contains_cons]
            cases is.contains j <;> simp

/-- Claiming a list is marking entries of it, one after the other. -/
theorem claim_preserves {P : Marker → Prop} (hmark : ∀ m m' i, P m → m.mark i = .ok m' → P m')
    {is js : List Nat} {m' : Marker} (h : P m) (hclaim : m.claim is = .ok (js, m')) : P m' := by
  induction is generalizing m js with
  | nil =>
      obtain ⟨-, rfl⟩ := Outcome.ok_pair_inj.mp hclaim
      exact h
  | cons i is ih =>
      obtain ⟨known, -, hclaim⟩ := Outcome.bind_eq_ok.mp hclaim
      cases known with
      | true => exact ih h hclaim
      | false =>
          obtain ⟨m₁, hfirst, hclaim⟩ := Outcome.bind_eq_ok.mp hclaim
          obtain ⟨⟨rest, m₂⟩, hrest, heq⟩ := Outcome.bind_eq_ok.mp hclaim
          obtain ⟨-, rfl⟩ := Outcome.ok_pair_inj.mp heq
          exact ih (hmark m m₁ i h hfirst) hrest

/-! ### In place -/

/-- What is written up to position `k` is not seen after it. -/
theorem drop_write {xs : Array Nat} {kept k : Nat} (hle : kept ≤ k) (i : Nat) :
    (xs.setIfInBounds kept i).toList.drop (k + 1) = xs.toList.drop (k + 1) := by
  rw [Array.toList_setIfInBounds, List.drop_set_of_lt (Nat.lt_succ_of_le hle)]

/-- Writing behind a front makes it longer by what is written. -/
theorem take_write {xs : Array Nat} {kept : Nat} (hlt : kept < xs.size) (i : Nat) :
    (xs.setIfInBounds kept i).toList.take (kept + 1) = xs.toList.take kept ++ [i] := by
  rw [Array.toList_setIfInBounds, List.take_add_one, List.take_set_of_le (Nat.le_refl _),
    List.getElem?_set_self (by rwa [Array.length_toList])]
  rfl

/--
**Moving what is not marked to the front is claiming it.**  The front stays what it was, and
what is claimed of the rest comes after it.
-/
theorem compact_eq_claim (rest : List Nat) :
    ∀ (m : Marker) (is : Array Nat) (kept k : Nat), kept ≤ k → is.toList.drop k = rest →
      m.compact is kept k rest.length
        = m.claim rest >>= fun r => pure (is.toList.take kept ++ r.1, r.2) := by
  induction rest with
  | nil =>
      intro m is kept k _ _
      simp [compact, claim]
  | cons i rest ih =>
      intro m is kept k hle hdrop
      have hi : is[k]? = some i := by
        rw [← Array.getElem?_toList, ← List.head?_drop, hdrop, List.head?_cons]
      have hrest : is.toList.drop (k + 1) = rest := by
        rw [← List.tail_drop, hdrop, List.tail_cons]
      have hlt : kept < is.size :=
        Nat.lt_of_le_of_lt hle (Array.getElem?_eq_some_iff.mp hi).1
      simp only [List.length_cons, compact, hi, claim]
      cases m.isMarked i with
      | error e => rfl
      | ok marked =>
          cases marked with
          | true => exact ih m is kept (k + 1) (Nat.le_succ_of_le hle) hrest
          | false =>
              cases m.mark i with
              | error e => rfl
              | ok m' =>
                  have hstep := ih m' _ (kept + 1) (k + 1) (Nat.succ_le_succ hle)
                    ((drop_write hle i).trans hrest)
                  rw [take_write hlt i] at hstep
                  simp [hstep]

theorem dedup_eq_claim (m : Marker) (is : List Nat) : m.dedup is = m.advance.claim is := by
  rw [dedup, compact_eq_claim is m.advance is.toArray 0 0 (Nat.le_refl 0) rfl]
  cases m.advance.claim is with
  | error e => rfl
  | ok r => rfl

theorem dedup_ok (h : Ready n m) (is : List Nat) (hlt : ∀ i ∈ is, i < n) :
    ∃ m', m.dedup is = .ok (is.eraseDups, m') ∧ Ready n m' ∧
      ∀ j, m'.contains j = is.contains j := by
  obtain ⟨m', hclaim, h', hc'⟩ := claim_ok is (advance_ready h) hlt
  refine ⟨m', ?_, h', ?_⟩
  · rw [dedup_eq_claim, hclaim, List.filter_eq_self.mpr fun i _ => by simp [contains_advance h]]
  · intro j
    rw [hc', contains_advance h, Bool.or_false]

theorem dedupAll_ok (lists : List (List Nat)) :
    ∀ {m : Marker}, Ready n m → (∀ is ∈ lists, ∀ i ∈ is, i < n) →
      ∃ m', m.dedupAll lists = .ok (lists.map List.eraseDups, m') ∧ Ready n m' := by
  induction lists with
  | nil =>
      intro m h _
      exact ⟨m, rfl, h⟩
  | cons is rest ih =>
      intro m h hlt
      obtain ⟨m₁, hdedup, h₁, -⟩ := dedup_ok h is (hlt is (by simp))
      obtain ⟨m₂, hrest, h₂⟩ := ih h₁ (fun js hjs => hlt js (by simp [hjs]))
      exact ⟨m₂, by simp [dedupAll, hdedup, hrest], h₂⟩

/-! ### Whatever was done before

A marker is handed from one use to the next.  `InUse` is all that can have become of it,
and what users of a marker rely on is no more than `InUse.ready`.
-/

/-- A marker for the numbers below `n`, after any calls that answered. -/
inductive InUse (n : Nat) : Marker → Prop
  | fresh : InUse n (Marker.fresh n)
  | advance {m : Marker} (h : InUse n m) : InUse n m.advance
  | mark {m m' : Marker} {i : Nat} (h : InUse n m) (hstep : m.mark i = .ok m') : InUse n m'

namespace InUse

variable {m' : Marker} {is js : List Nat}

/-- **A marker is ready again after any use.** -/
theorem ready (h : InUse n m) : Ready n m := by
  induction h with
  | fresh => exact fresh_ready n
  | advance _ ih => exact advance_ready ih
  | @mark m m' i _ hstep ih =>
      have hi : i < n := by
        rw [← ih.size]
        by_contra hc
        simp [Marker.mark, hc] at hstep
      obtain ⟨m'', hok, hready, -⟩ := mark_ok ih hi
      rw [hstep, Except.ok.injEq] at hok
      rw [hok]
      exact hready

theorem claim (h : InUse n m) (hstep : m.claim is = .ok (js, m')) : InUse n m' :=
  claim_preserves (fun _ _ _ => InUse.mark) h hstep

theorem dedup (h : InUse n m) (hstep : m.dedup is = .ok (js, m')) : InUse n m' := by
  rw [dedup_eq_claim] at hstep
  exact h.advance.claim hstep

end InUse

end EliminationOrder.Marker

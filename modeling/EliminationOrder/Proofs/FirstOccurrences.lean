/-
Lists without their repetitions.

`eraseDups` keeps each number where it stands first.  `FirstOccurrences` says what that is:
the numbers of the list, none of them twice, in the order in which the list comes to them.
There is only one such list (`firstOccurrences_iff`).

That first occurrences keep the order of what they come from is an induction from the back
(`pairwise_firstOccurrences`): one more element adds at most one number, at the end, and
changes no position of the others.
-/
import Mathlib.Data.List.Induction
import Mathlib.Data.List.Perm.Basic

namespace EliminationOrder

/-- What `is` comes to, in the order in which it comes to it, each number once. -/
structure FirstOccurrences (is kept : List Nat) : Prop where
  nodup : kept.Nodup
  mem_iff : ∀ i, i ∈ kept ↔ i ∈ is
  inOrder : kept.Pairwise fun i j => is.idxOf i < is.idxOf j

/-! ### No number twice -/

theorem nodup_eraseDups (is : List Nat) : is.eraseDups.Nodup := by
  -- The recursion is on a filtered tail, so the induction is on a bound for the length.
  suffices ∀ (bound : Nat) (is : List Nat), is.length ≤ bound → is.eraseDups.Nodup from
    this is.length is (Nat.le_refl _)
  intro bound
  induction bound with
  | zero =>
      intro is hlen
      simp [List.length_eq_zero_iff.mp (Nat.le_zero.mp hlen)]
  | succ bound ih =>
      intro is hlen
      cases is with
      | nil => simp
      | cons i is =>
          have hshort : (is.filter fun j => !j == i).length ≤ bound :=
            Nat.le_trans (List.length_filter_le _ _) (by simpa using hlen)
          rw [List.eraseDups_cons, List.nodup_cons]
          exact ⟨by simp [List.mem_eraseDups], ih _ hshort⟩

theorem eraseDups_eq_self {is : List Nat} (h : is.Nodup) : is.eraseDups = is := by
  induction is with
  | nil => rfl
  | cons i is ih =>
      obtain ⟨hi, his⟩ := List.nodup_cons.mp h
      have hfilter : (is.filter fun j => !j == i) = is := by
        refine List.filter_eq_self.mpr fun j hj => ?_
        have : j ≠ i := fun hc => hi (hc ▸ hj)
        simpa using this
      rw [List.eraseDups_cons, hfilter, ih his]

/-! ### Order -/

theorem eraseDups_concat (l : List Nat) (y : Nat) :
    (l ++ [y]).eraseDups = if y ∈ l then l.eraseDups else l.eraseDups ++ [y] := by
  rw [List.eraseDups_append]
  by_cases hy : y ∈ l
  · have hold : [y].removeAll l = [] := List.filter_eq_nil_iff.mpr (by simp [hy])
    simp [hold, hy]
  · have hnew : [y].removeAll l = [y] := List.filter_eq_self.mpr (by simp [hy])
    simp [hnew, hy, List.eraseDups_cons]

/-- **First occurrences keep the order of what names them**: what is named earlier comes earlier. -/
theorem pairwise_firstOccurrences {β : Type} (f : β → Option Nat) (es : List β) :
    (es.filterMap f).eraseDups.Pairwise fun x y =>
      es.findIdx (fun e => f e == some x) < es.findIdx (fun e => f e == some y) := by
  induction es using List.reverseRecOn with
  | nil => simp
  | append_singleton es e ih =>
      -- What has been named has its position among the earlier elements.
      have hfound : ∀ {x}, x ∈ (es.filterMap f).eraseDups →
          es.findIdx (fun e => f e == some x) < es.length := by
        intro x hx
        obtain ⟨e', he', hx'⟩ := List.mem_filterMap.mp (List.mem_eraseDups.mp hx)
        exact List.findIdx_lt_length.mpr ⟨e', he', by simp [hx']⟩
      have hkept : (es.filterMap f).eraseDups.Pairwise fun x y =>
          (es ++ [e]).findIdx (fun e => f e == some x)
            < (es ++ [e]).findIdx (fun e => f e == some y) := by
        refine ih.imp_of_mem fun {x y} hx hy hxy => ?_
        rw [List.findIdx_append, List.findIdx_append, if_pos (hfound hx), if_pos (hfound hy)]
        exact hxy
      rw [List.filterMap_append]
      cases he : f e with
      | none => simpa [he] using hkept
      | some y =>
          rw [List.filterMap_cons_some he, List.filterMap_nil, eraseDups_concat]
          by_cases hy : y ∈ es.filterMap f
          · rw [if_pos hy]
            exact hkept
          · have hlate : ¬ es.findIdx (fun e => f e == some y) < es.length := by
              rw [List.findIdx_lt_length]
              rintro ⟨e', he', hy'⟩
              exact hy (List.mem_filterMap.mpr ⟨e', he', by simpa using hy'⟩)
            rw [if_neg hy, List.pairwise_append]
            refine ⟨hkept, by simp, ?_⟩
            intro x hx z hz
            obtain rfl := List.mem_singleton.mp hz
            have hlt := hfound hx
            rw [List.findIdx_append, List.findIdx_append, if_pos hlt, if_neg hlate]
            omega

/-! ### The one such list -/

theorem firstOccurrences_eraseDups (is : List Nat) : FirstOccurrences is is.eraseDups := by
  refine ⟨nodup_eraseDups is, fun i => List.mem_eraseDups, ?_⟩
  have h := pairwise_firstOccurrences some is
  rw [List.filterMap_some] at h
  -- Where the first `some i` would stand is where `i` stands, by definition.
  exact h

/-- **First occurrences are what `eraseDups` leaves, and nothing else is.** -/
theorem firstOccurrences_iff {is kept : List Nat} :
    FirstOccurrences is kept ↔ kept = is.eraseDups := by
  constructor
  · intro h
    have hfirst := firstOccurrences_eraseDups is
    have hmem : ∀ i, i ∈ kept ↔ i ∈ is.eraseDups := fun i => by rw [h.mem_iff, hfirst.mem_iff]
    have hperm : kept.Perm is.eraseDups :=
      (List.perm_ext_iff_of_nodup h.nodup hfirst.nodup).mpr hmem
    exact hperm.eq_of_pairwise (fun i j _ _ hij hji => absurd hij (Nat.lt_asymm hji))
      h.inOrder hfirst.inOrder
  · rintro rfl
    exact firstOccurrences_eraseDups is

end EliminationOrder

/-
Triplets are added up where they belong.

`Assembled` says what the columns hold once part of the list has gone in: a row is stored
just when some triplet named it, and then with the sum of its values, from zero on and in
the order of the list.  Nothing is asked of the addition, so the order matters; a triplet
that comes last is added last, and one step keeps the description (`Assembled.step`).

From there on triplets are columns: counting the columns of the entries gives the boundaries
of the packed columns (`groupBoundaries_listEntries`), so the matrix is the one of the
columns (`ofTriplets_eq_ofColumns`), and nothing is refused any more.
-/
import EliminationOrder.Proofs.Matrix.Packing
import Mathlib.Data.Finset.Card

namespace EliminationOrder

variable {α : Type}

/-! ### Adding to a column -/

namespace Column

theorem lookup_cons_ne {i s : Nat} (h : i ≠ s) (y : α) (col : Column α) :
    List.lookup i ((s, y) :: col) = List.lookup i col := by
  have hne : (i == s) = false := by simpa using h
  rw [List.lookup_cons, hne]

theorem lookup_eq_none_iff {i : Nat} {col : Column α} :
    List.lookup i col = none ↔ i ∉ col.map Prod.fst := by
  rw [List.lookup_eq_none_iff]
  constructor
  · intro h hmem
    obtain ⟨e, he, rfl⟩ := List.mem_map.mp hmem
    simpa using h e he
  · intro h e he
    have hne : i ≠ e.1 := fun hc => h (hc ▸ List.mem_map_of_mem he)
    simpa using hne

variable [Entry α] {col : Column α} {i r : Nat} {x : α}

theorem mem_rows_accumulate :
    i ∈ (accumulate r x col).map Prod.fst ↔ i = r ∨ i ∈ col.map Prod.fst := by
  induction col with
  | nil => simp [accumulate]
  | cons e col ih =>
      obtain ⟨s, y⟩ := e
      rw [accumulate]
      split
      · simp
      · split
        · next hrs => simp [hrs]
        · rw [List.map_cons, List.mem_cons, ih, List.map_cons, List.mem_cons]
          exact or_left_comm

theorem Ascending.accumulate (h : col.Ascending) : (Column.accumulate r x col).Ascending := by
  induction col with
  | nil => simp [Column.accumulate, Ascending]
  | cons e col ih =>
      obtain ⟨s, y⟩ := e
      obtain ⟨hfirst, hrest⟩ := List.pairwise_cons.mp h
      rw [Column.accumulate]
      split
      · next hlt =>
          refine List.pairwise_cons.mpr ⟨?_, h⟩
          intro e he
          rcases List.mem_cons.mp he with rfl | he
          · exact hlt
          · exact Nat.lt_trans hlt (hfirst e he)
      · next hle =>
          split
          · exact List.pairwise_cons.mpr ⟨hfirst, hrest⟩
          · next hne =>
              refine List.pairwise_cons.mpr ⟨?_, ih hrest⟩
              intro e he
              have hrow := mem_rows_accumulate.mp (List.mem_map_of_mem he)
              rcases hrow with hrow | hrow
              · show s < e.1
                omega
              · obtain ⟨e', he', heq⟩ := List.mem_map.mp hrow
                rw [← heq]
                exact hfirst e' he'

/-- A value is added to the entry of its row, and no other entry changes. -/
theorem lookup_accumulate (h : col.Ascending) : List.lookup i (accumulate r x col) =
    if i = r then some ((List.lookup r col).getD 0 + x) else List.lookup i col := by
  induction col with
  | nil =>
      rw [accumulate]
      by_cases hi : i = r
      · simp [hi, List.lookup_cons_self]
      · simp [hi, lookup_cons_ne hi]
  | cons e col ih =>
      obtain ⟨s, y⟩ := e
      obtain ⟨hfirst, hrest⟩ := List.pairwise_cons.mp h
      rw [accumulate]
      split
      · next hlt =>
          -- The row comes before all rows that are stored, so it is not stored yet.
          have hnone : List.lookup r ((s, y) :: col) = none := by
            refine lookup_eq_none fun e he => ?_
            rcases List.mem_cons.mp he with rfl | he
            · exact hlt
            · exact Nat.lt_trans hlt (hfirst e he)
          by_cases hi : i = r
          · simp [hi, hnone, List.lookup_cons_self]
          · rw [lookup_cons_ne hi, if_neg hi]
      · split
        · next hrs =>
            subst hrs
            by_cases hi : i = r
            · simp [hi, List.lookup_cons_self]
            · rw [lookup_cons_ne hi, if_neg hi, lookup_cons_ne hi]
        · next hrs =>
            by_cases hi : i = s
            · subst hi
              rw [List.lookup_cons_self, if_neg (Ne.symm hrs), List.lookup_cons_self]
            · rw [lookup_cons_ne hi, ih hrest, lookup_cons_ne hrs, lookup_cons_ne hi]

end Column

/-! ### Columns that are being put together -/

/-- The values that triplets have for a position, in order. -/
def valuesAt (i j : Nat) (triplets : List (Nat × Nat × α)) : List α :=
  (triplets.filter fun t => t.1 = i ∧ t.2.1 = j).map fun t => t.2.2

theorem valuesAt_append (i j : Nat) (s t : List (Nat × Nat × α)) :
    valuesAt i j (s ++ t) = valuesAt i j s ++ valuesAt i j t := by
  simp [valuesAt]

theorem valuesAt_concat_self (i j : Nat) (x : α) (triplets : List (Nat × Nat × α)) :
    valuesAt i j (triplets ++ [(i, j, x)]) = valuesAt i j triplets ++ [x] := by
  simp [valuesAt]

theorem valuesAt_concat_ne {i j r c : Nat} (h : ¬ (r = i ∧ c = j)) (x : α)
    (triplets : List (Nat × Nat × α)) :
    valuesAt i j (triplets ++ [(r, c, x)]) = valuesAt i j triplets := by
  simp [valuesAt, h]

theorem valuesAt_eq_nil_iff {i j : Nat} {triplets : List (Nat × Nat × α)} :
    valuesAt i j triplets = [] ↔ ∀ t ∈ triplets, ¬ (t.1 = i ∧ t.2.1 = j) := by
  simp [valuesAt, List.filter_eq_nil_iff]

section Assembling

variable [Entry α] {ncols i j r c : Nat} {x : α} {triplets : List (Nat × Nat × α)}
  {columns : Array (Column α)}

/-- What the triplets put into a position: nothing, or their values one after the other added to zero. -/
def sumAt (i j : Nat) (triplets : List (Nat × Nat × α)) : Option α :=
  if valuesAt i j triplets = [] then none else some ((valuesAt i j triplets).foldl (· + ·) 0)

theorem sumAt_getD : (sumAt i j triplets).getD 0 = (valuesAt i j triplets).foldl (· + ·) 0 := by
  unfold sumAt
  by_cases h : valuesAt i j triplets = []
  · simp [h]
  · simp [h]

theorem sumAt_concat_self (i j : Nat) (x : α) (triplets : List (Nat × Nat × α)) :
    sumAt i j (triplets ++ [(i, j, x)]) = some ((sumAt i j triplets).getD 0 + x) := by
  rw [sumAt_getD, sumAt, valuesAt_concat_self, if_neg (by simp), List.foldl_append]
  rfl

theorem sumAt_concat_ne (h : ¬ (r = i ∧ c = j)) (x : α) (triplets : List (Nat × Nat × α)) :
    sumAt i j (triplets ++ [(r, c, x)]) = sumAt i j triplets := by
  rw [sumAt, valuesAt_concat_ne h, sumAt]

/-- Every column holds, in ascending order, the rows that the triplets name in it, each with the
sum of its values. -/
structure Assembled (ncols : Nat) (triplets : List (Nat × Nat × α)) (columns : Array (Column α)) :
    Prop where
  size : columns.size = ncols
  column : ∀ j < ncols, ∃ col, columns[j]? = some col ∧ col.Ascending ∧
    ∀ i, List.lookup i col = sumAt i j triplets

theorem assembled_nil (ncols : Nat) :
    Assembled ncols ([] : List (Nat × Nat × α)) (Array.replicate ncols []) where
  size := Array.size_replicate
  column j hj := ⟨[], by simp [hj], List.Pairwise.nil, fun _ => rfl⟩

/-- **One more triplet is added to its column, after all those before it.** -/
theorem Assembled.step (h : Assembled ncols triplets columns) (r c : Nat) (x : α) :
    Assembled ncols (triplets ++ [(r, c, x)]) (columns.modify c (Column.accumulate r x)) := by
  refine ⟨by rw [Array.size_modify, h.size], ?_⟩
  intro j hj
  obtain ⟨col, hcol, hascending, hlookup⟩ := h.column j hj
  by_cases hcj : c = j
  · subst hcj
    refine ⟨Column.accumulate r x col, ?_, hascending.accumulate, ?_⟩
    · rw [Array.getElem?_modify, if_pos rfl, hcol]
      rfl
    · intro i
      rw [Column.lookup_accumulate hascending, hlookup, hlookup]
      by_cases hi : i = r
      · rw [if_pos hi, hi, sumAt_concat_self]
      · rw [if_neg hi, sumAt_concat_ne fun hc => hi hc.1.symm]
  · refine ⟨col, ?_, hascending, ?_⟩
    · rw [Array.getElem?_modify, if_neg hcj, hcol]
    · intro i
      rw [hlookup, sumAt_concat_ne fun hc => hcj hc.2]

/-- **The columns that are collected hold the sums of all triplets.** -/
theorem assembled_collect (ncols : Nat) (triplets : List (Nat × Nat × α)) :
    Assembled ncols triplets (SparseMatrix.collect ncols triplets) := by
  induction triplets using List.reverseRecOn with
  | nil => exact assembled_nil ncols
  | append_singleton triplets t ih =>
      obtain ⟨r, c, x⟩ := t
      have hstep := ih.step r c x
      rw [SparseMatrix.collect, List.foldl_concat]
      exact hstep

theorem sumAt_eq_none_iff : sumAt i j triplets = none ↔ ∀ t ∈ triplets, ¬ (t.1 = i ∧ t.2.1 = j) := by
  rw [← valuesAt_eq_nil_iff, sumAt]
  by_cases h : valuesAt i j triplets = []
  · simp [h]
  · simp [h]

theorem Assembled.of_getElem? (h : Assembled ncols triplets columns) {col : Column α}
    (hcol : columns[j]? = some col) :
    col.Ascending ∧ ∀ i, List.lookup i col = sumAt i j triplets := by
  have hj : j < ncols := by
    rw [← h.size]
    exact (Array.getElem?_eq_some_iff.mp hcol).1
  obtain ⟨col', hcol', hspec⟩ := h.column j hj
  obtain rfl : col' = col := Option.some.inj (hcol'.symm.trans hcol)
  exact hspec

/-- A column stores the rows that triplets name in it. -/
theorem Assembled.mem_rows (h : Assembled ncols triplets columns) {col : Column α}
    (hcol : columns[j]? = some col) :
    i ∈ col.map Prod.fst ↔ ∃ t ∈ triplets, t.1 = i ∧ t.2.1 = j := by
  obtain ⟨-, hlookup⟩ := h.of_getElem? hcol
  rw [← not_iff_not, ← Column.lookup_eq_none_iff, hlookup, sumAt_eq_none_iff]
  exact ⟨fun h ⟨t, ht, hpos⟩ => h t ht hpos, fun h t ht hpos => h ⟨t, ht, hpos⟩⟩

theorem Assembled.distinct (h : Assembled ncols triplets columns) :
    ∀ col ∈ columns.toList, col.Distinct := by
  intro col hcol
  obtain ⟨j, hj⟩ := List.getElem?_of_mem hcol
  rw [Array.getElem?_toList] at hj
  exact (h.of_getElem? hj).1.distinct

end Assembling

/-! ### Listing the columns again -/

section Listing

/-- Without their columns, the entries are those of the columns one after the other. -/
theorem map_listEntries {β : Type} (f : Nat × α → β) (columns : List (Column α)) :
    ∀ j, (SparseMatrix.listEntries j columns).map (fun e => f (e.1, e.2.2))
      = columns.flatten.map f := by
  induction columns with
  | nil => exact fun _ => rfl
  | cons col cols ih =>
      intro j
      rw [SparseMatrix.listEntries, List.map_append, ih, List.flatten_cons, List.map_append,
        List.map_map]
      rfl

/-- The entries of the columns before column `k` are those that are counted below it. -/
theorem countP_listEntries (columns : List (Column α)) (k : Nat) :
    ∀ j, ((SparseMatrix.listEntries j columns).map fun e => e.2.1).countP (· < k)
      = (columns.take (k - j)).flatten.length := by
  induction columns with
  | nil =>
      intro j
      simp [SparseMatrix.listEntries]
  | cons col cols ih =>
      intro j
      rw [SparseMatrix.listEntries, List.map_append, List.countP_append, ih, List.map_map]
      have hcol : (col.map fun _ => j).countP (· < k) = if j < k then col.length else 0 := by
        rw [List.map_const', List.countP_replicate]
        simp
      have hmap : col.map ((fun e : Nat × Nat × α => e.2.1) ∘ fun e => (e.1, j, e.2))
          = col.map fun _ => j := rfl
      rw [hmap, hcol]
      by_cases hjk : j < k
      · rw [if_pos hjk, show k - j = (k - (j + 1)) + 1 by omega, List.take_succ_cons,
          List.flatten_cons, List.length_append]
      · rw [if_neg hjk, show k - j = 0 by omega, show k - (j + 1) = 0 by omega]
        rfl

/-- **Counting the columns of the entries finds where the columns begin.** -/
theorem groupBoundaries_listEntries (columns : List (Column α)) :
    groupBoundaries columns.length ((SparseMatrix.listEntries 0 columns).map fun e => e.2.1)
      = columnOffsets 0 columns := by
  refine List.ext_getElem? fun k => ?_
  by_cases hk : k ≤ columns.length
  · rw [getElem?_groupBoundaries _ hk, getElem?_columnOffsets _ _ _ hk, countP_listEntries,
      Nat.sub_zero, Nat.zero_add]
  · rw [List.getElem?_eq_none (by rw [length_groupBoundaries]; omega),
      List.getElem?_eq_none (by rw [length_columnOffsets]; omega)]

/-- The positions that columns numbered from `j` store. -/
def storedPositions (j : Nat) (columns : List (Column α)) : List (Nat × Nat) :=
  (SparseMatrix.listEntries j columns).map fun e => (e.1, e.2.1)

theorem storedPositions_cons (j : Nat) (col : Column α) (cols : List (Column α)) :
    storedPositions j (col :: cols)
      = (col.map Prod.fst).map (·, j) ++ storedPositions (j + 1) cols := by
  rw [storedPositions, SparseMatrix.listEntries, List.map_append, List.map_map, List.map_map]
  rfl

theorem length_storedPositions (j : Nat) (columns : List (Column α)) :
    (storedPositions j columns).length = columns.flatten.length := by
  have hlen := congrArg List.length (map_listEntries id columns j)
  rw [List.length_map, List.length_map] at hlen
  rw [storedPositions, List.length_map, hlen]

/-- A position is stored when its column stores its row. -/
theorem mem_storedPositions {i c : Nat} (columns : List (Column α)) :
    ∀ j, (i, c) ∈ storedPositions j columns ↔
      j ≤ c ∧ ∃ col, columns[c - j]? = some col ∧ i ∈ col.map Prod.fst := by
  induction columns with
  | nil =>
      intro j
      simp [storedPositions, SparseMatrix.listEntries]
  | cons col cols ih =>
      intro j
      have hcol : (i, c) ∈ (col.map Prod.fst).map (·, j) ↔ c = j ∧ i ∈ col.map Prod.fst := by
        rw [List.mem_map]
        constructor
        · rintro ⟨r, hr, heq⟩
          obtain ⟨rfl, rfl⟩ := Prod.mk.inj heq
          exact ⟨rfl, hr⟩
        · rintro ⟨rfl, hi⟩
          exact ⟨i, hi, rfl⟩
      rw [storedPositions_cons, List.mem_append, hcol, ih]
      by_cases hcj : c = j
      · subst hcj
        have hnot : ¬ c + 1 ≤ c := by omega
        simp [hnot]
      · by_cases hle : j + 1 ≤ c
        · rw [show c - j = (c - (j + 1)) + 1 by omega, List.getElem?_cons_succ]
          simp [hcj, hle, show j ≤ c by omega]
        · simp [hcj, hle, show ¬ j ≤ c by omega]

/-- Columns that list no row twice store no position twice. -/
theorem nodup_storedPositions (columns : List (Column α)) :
    (∀ col ∈ columns, col.Distinct) → ∀ j, (storedPositions j columns).Nodup := by
  induction columns with
  | nil => exact fun _ _ => List.nodup_nil
  | cons col cols ih =>
      intro h j
      rw [storedPositions_cons, List.nodup_append]
      refine ⟨?_, ih (fun col hcol => h col (by simp [hcol])) (j + 1), ?_⟩
      · exact (h col (by simp)).map fun r s hrs => (Prod.mk.inj hrs).1
      · rintro ⟨r, c⟩ hfirst ⟨s, d⟩ hrest heq
        obtain ⟨rfl, rfl⟩ := Prod.mk.inj heq
        -- The first column is column `j`, and all others come after it.
        obtain ⟨_, -, hc⟩ := List.mem_map.mp hfirst
        have hle := ((mem_storedPositions cols (j + 1)).mp hrest).1
        have hcj : j = c := (Prod.mk.inj hc).2
        omega

end Listing

/-! ### Matrices of triplets -/

namespace SparseMatrix

variable [Entry α] {nrows ncols : Nat} {triplets : List (Nat × Nat × α)}

/-- **Triplets of positions that exist are the columns that they add up to.** -/
theorem ofTriplets_eq_ofColumns (h : ∀ t ∈ triplets, t.1 < nrows ∧ t.2.1 < ncols) :
    ofTriplets nrows ncols triplets = ofColumns nrows (collect ncols triplets).toList := by
  have hlen : (collect ncols triplets).toList.length = ncols := by
    rw [Array.length_toList, (assembled_collect ncols triplets).size]
  unfold ofTriplets
  split
  · next r c x hfind =>
      have hmem := List.mem_of_find?_eq_some hfind
      have hout := List.find?_some hfind
      have hin := h _ hmem
      simp [hin.1, hin.2] at hout
  · have hboundaries := groupBoundaries_listEntries (collect ncols triplets).toList
    have hrows := map_listEntries Prod.fst (collect ncols triplets).toList 0
    have hvalues := map_listEntries Prod.snd (collect ncols triplets).toList 0
    rw [hlen] at hboundaries
    rw [ofColumns, hlen, ← hboundaries, ← hrows, ← hvalues]

theorem ofTriplets_eq_error (h : ∃ t ∈ triplets, nrows ≤ t.1 ∨ ncols ≤ t.2.1) :
    ∃ f, ofTriplets nrows ncols triplets = .error (.fault f) := by
  unfold ofTriplets
  split
  · exact ⟨_, rfl⟩
  · next hnone =>
      obtain ⟨⟨r, c, x⟩, ht, hout⟩ := h
      have hout : nrows ≤ r ∨ ncols ≤ c := hout
      have hin := List.find?_eq_none.mp hnone _ ht
      simp only [Bool.not_eq_true', Bool.not_eq_false, Bool.and_eq_true, decide_eq_true_eq] at hin
      omega

/-- Columns of triplets in range are accepted. -/
theorem ofColumns_collect_ok (ncols : Nat) (h : ∀ t ∈ triplets, t.1 < nrows) :
    ∃ a, ofColumns nrows (collect ncols triplets).toList = .ok a := by
  have hassembled := assembled_collect ncols triplets
  have hrange : ∀ col ∈ (collect ncols triplets).toList, col.InRange nrows := by
    intro col hcol e he
    obtain ⟨j, hj⟩ := List.getElem?_of_mem hcol
    rw [Array.getElem?_toList] at hj
    obtain ⟨t, ht, hrow, -⟩ := (hassembled.mem_rows hj).mp (List.mem_map_of_mem he)
    rw [← hrow]
    exact h t ht
  obtain ⟨a, hok, -⟩ := ofColumns_ok hrange hassembled.distinct
  exact ⟨a, hok⟩

/-- The columns store the positions that the triplets name. -/
theorem length_flatten_collect (h : ∀ t ∈ triplets, t.2.1 < ncols) :
    (collect ncols triplets).toList.flatten.length
      = (triplets.map fun t => (t.1, t.2.1)).toFinset.card := by
  have hassembled := assembled_collect ncols triplets
  have hsame : (triplets.map fun t => (t.1, t.2.1)).toFinset
      = (storedPositions 0 (collect ncols triplets).toList).toFinset := by
    ext ⟨i, j⟩
    rw [List.mem_toFinset, List.mem_toFinset, mem_storedPositions, Nat.sub_zero, List.mem_map]
    constructor
    · intro hmem
      obtain ⟨t, ht, heq⟩ := hmem
      obtain ⟨rfl, rfl⟩ := Prod.mk.inj heq
      obtain ⟨col, hcol, -, -⟩ := hassembled.column t.2.1 (h t ht)
      exact ⟨Nat.zero_le _, col, by rw [Array.getElem?_toList, hcol],
        (hassembled.mem_rows hcol).mpr ⟨t, ht, rfl, rfl⟩⟩
    · intro hmem
      obtain ⟨-, col, hcol, hi⟩ := hmem
      rw [Array.getElem?_toList] at hcol
      obtain ⟨t, ht, rfl, rfl⟩ := (hassembled.mem_rows hcol).mp hi
      exact ⟨t, ht, rfl⟩
  rw [hsame, List.toFinset_card_of_nodup (nodup_storedPositions _ hassembled.distinct 0),
    length_storedPositions]

/-- **A matrix of triplets in range holds, at each position, the values listed for it added up.** -/
theorem ofTriplets_ok (h : ∀ t ∈ triplets, t.1 < nrows ∧ t.2.1 < ncols) :
    ∃ a, ofTriplets nrows ncols triplets = .ok a ∧ a.nrows = nrows ∧ a.ncols = ncols ∧
      ∀ i j, j < ncols → a.get i j = .ok ((valuesAt i j triplets).foldl (· + ·) 0) := by
  have hassembled := assembled_collect ncols triplets
  obtain ⟨a, hok⟩ := ofColumns_collect_ok ncols fun t ht => (h t ht).1
  refine ⟨a, (ofTriplets_eq_ofColumns h).trans hok, (ofColumns_eq_ok.mp hok).2.1, ?_, ?_⟩
  · rw [ncols_of_ofColumns hok, Array.length_toList, hassembled.size]
  · intro i j hj
    obtain ⟨col, hcol, -, hlookup⟩ := hassembled.column j hj
    rw [get_of_ofColumns hok (by rw [Array.getElem?_toList, hcol]) i, hlookup, sumAt_getD]

/-- **Triplets are added up in order**, whatever addition does.  A triplet out of range is a fault,
and nothing else is: every position then holds its values added to zero one after the other, and
what is stored are the positions that the triplets name, each of them once. -/
theorem ofTriplets_adds_in_order (nrows ncols : Nat) (triplets : List (Nat × Nat × α)) :
    ((∃ f, ofTriplets nrows ncols triplets = .error (.fault f)) ↔
      ∃ t ∈ triplets, nrows ≤ t.1 ∨ ncols ≤ t.2.1) ∧
    ((∀ t ∈ triplets, t.1 < nrows ∧ t.2.1 < ncols) →
      ∃ a, ofTriplets nrows ncols triplets = .ok a ∧ a.nrows = nrows ∧ a.ncols = ncols ∧
        (∀ i j, j < ncols → a.get i j = .ok ((valuesAt i j triplets).foldl (· + ·) 0)) ∧
        a.storedCount = (triplets.map fun t => (t.1, t.2.1)).toFinset.card) := by
  have hassembled := assembled_collect ncols triplets
  have hlen : (collect ncols triplets).toList.length = ncols := by
    rw [Array.length_toList, hassembled.size]
  have hok : (∀ t ∈ triplets, t.1 < nrows ∧ t.2.1 < ncols) → ∃ a,
      ofTriplets nrows ncols triplets = .ok a ∧
        ofColumns nrows (collect ncols triplets).toList = .ok a := by
    intro hin
    obtain ⟨a, hcolumns⟩ := ofColumns_collect_ok ncols fun t ht => (hin t ht).1
    exact ⟨a, (ofTriplets_eq_ofColumns hin).trans hcolumns, hcolumns⟩
  refine ⟨⟨?_, ofTriplets_eq_error⟩, ?_⟩
  · intro h
    obtain ⟨f, hf⟩ := h
    by_contra hnot
    have hin : ∀ t ∈ triplets, t.1 < nrows ∧ t.2.1 < ncols := by
      intro t ht
      constructor
      · exact Nat.lt_of_not_le fun hle => hnot ⟨t, ht, Or.inl hle⟩
      · exact Nat.lt_of_not_le fun hle => hnot ⟨t, ht, Or.inr hle⟩
    obtain ⟨a, ha, -⟩ := hok hin
    exact absurd (ha.symm.trans hf) (by simp)
  · intro hin
    obtain ⟨a, ha, hcolumns⟩ := hok hin
    refine ⟨a, ha, (ofColumns_eq_ok.mp hcolumns).2.1, ?_, ?_, ?_⟩
    · rw [ncols_of_ofColumns hcolumns, hlen]
    · intro i j hj
      obtain ⟨col, hcol, -, hlookup⟩ := hassembled.column j hj
      rw [get_of_ofColumns hcolumns (by rw [Array.getElem?_toList, hcol]) i, hlookup, sumAt_getD]
    · rw [storedCount_of_ofColumns hcolumns, length_flatten_collect fun t ht => (hin t ht).2]

/-- Values that cancel stay stored; columns that no triplet names stay empty. -/
theorem ofTriplets_adds_in_order_cancelling :
    (∀ t ∈ ([(0, 3, 7), (1, 1, 2), (0, 3, -7), (1, 1, 5)] : List (Nat × Nat × Int64)),
      t.1 < 2 ∧ t.2.1 < 5) ∧
    (∃ a, ofTriplets 2 5 ([(0, 3, 7), (1, 1, 2), (0, 3, -7), (1, 1, 5)] :
        List (Nat × Nat × Int64)) = .ok a ∧
      a.get 1 1 = .ok 7 ∧ a.get 0 3 = .ok 0 ∧ a.get 0 4 = .ok 0 ∧ a.storedCount = 2) ∧
    ∃ f, ofTriplets 2 5 ([(0, 3, 7), (0, 5, 1)] : List (Nat × Nat × Int64)) = .error (.fault f) := by
  obtain ⟨-, hsums⟩ := ofTriplets_adds_in_order 2 5
    ([(0, 3, 7), (1, 1, 2), (0, 3, -7), (1, 1, 5)] : List (Nat × Nat × Int64))
  obtain ⟨hfault, -⟩ := ofTriplets_adds_in_order 2 5
    ([(0, 3, 7), (0, 5, 1)] : List (Nat × Nat × Int64))
  have hin : ∀ t ∈ ([(0, 3, 7), (1, 1, 2), (0, 3, -7), (1, 1, 5)] : List (Nat × Nat × Int64)),
      t.1 < 2 ∧ t.2.1 < 5 := by decide
  obtain ⟨a, hok, -, -, hget, hcount⟩ := hsums hin
  refine ⟨hin, ⟨a, hok, hget 1 1 (by decide), hget 0 3 (by decide), hget 0 4 (by decide), ?_⟩, ?_⟩
  · rw [hcount]
    decide
  · exact hfault.mpr ⟨(0, 5, 1), by decide, Or.inr (by decide)⟩

end SparseMatrix

end EliminationOrder

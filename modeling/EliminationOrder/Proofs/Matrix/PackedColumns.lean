/-
Sorting packed columns in place.

A part of the arrays is read and sorted just when it lies in both of them (`Holds`); what
stands there are its `entries`.  Sorting one column puts its sorted entries into the same
places and changes nothing before or after (`entries_sorted`, `entries_sorted_of_apart`).

Boundaries that follow one another are worked through from the left.  What comes later lies
to the right of what has been sorted and has not been touched, and sorting it does not touch
what lies to the left; so at the end every column stands sorted in its place
(`sortColumns_ok`).  No other boundaries get through: if a column does not lie in the arrays,
that is a fault, whatever the columns before it have come to (`sortColumns_eq_error`).
-/
import EliminationOrder.Matrix.Packed
import EliminationOrder.Proofs.Matrix.Columns
import Mathlib.Data.List.Chain

namespace EliminationOrder

/-! ### Parts of arrays -/

section Parts

variable {β : Type} {xs ys : Array β} {l : List β} {i k first last : Nat}

theorem slice_eq_ok : slice xs first last = .ok l ↔
    (first ≤ last ∧ last ≤ xs.size) ∧ (xs.extract first last).toList = l := by
  unfold slice
  by_cases h : first ≤ last ∧ last ≤ xs.size
  · rw [if_pos h]
    simp [h]
  · rw [if_neg h]
    simp [h]

theorem getElem?_extract (h : last ≤ xs.size) :
    (xs.extract first last).toList[k]? = if first + k < last then xs[first + k]? else none := by
  rw [Array.getElem?_toList, Array.getElem?_extract, Nat.min_eq_left h]
  by_cases hk : first + k < last
  · rw [if_pos hk, if_pos (by omega)]
  · rw [if_neg hk, if_neg (by omega)]

theorem size_overwrite (ys : List β) :
    ∀ (i : Nat) (xs : Array β), (overwrite i ys xs).size = xs.size := by
  induction ys with
  | nil => exact fun _ _ => rfl
  | cons y ys ih =>
      intro i xs
      rw [overwrite, ih, Array.size_setIfInBounds]

/-- Past the places written, an array is as it was. -/
theorem getElem?_overwrite_of_apart (ys : List β) :
    ∀ (i : Nat) (xs : Array β), k < i ∨ i + ys.length ≤ k → (overwrite i ys xs)[k]? = xs[k]? := by
  induction ys with
  | nil => exact fun _ _ _ => rfl
  | cons y ys ih =>
      intro i xs hk
      rw [List.length_cons] at hk
      rw [overwrite, ih (i + 1) _ (by omega), Array.getElem?_setIfInBounds_ne (by omega)]

theorem getElem?_overwrite (ys : List β) :
    ∀ (i : Nat) (xs : Array β), i + ys.length ≤ xs.size →
      ∀ k < ys.length, (overwrite i ys xs)[i + k]? = ys[k]? := by
  induction ys with
  | nil => exact fun _ _ _ k hk => absurd hk (Nat.not_lt_zero k)
  | cons y ys ih =>
      intro i xs hroom k hk
      rw [List.length_cons] at hroom hk
      rw [overwrite]
      cases k with
      | zero =>
          have hlt : i < xs.size := by omega
          rw [getElem?_overwrite_of_apart ys (i + 1) _ (by omega)]
          simp [hlt]
      | succ k =>
          rw [show i + (k + 1) = i + 1 + k by omega, List.getElem?_cons_succ]
          exact ih (i + 1) _ (by rw [Array.size_setIfInBounds]; omega) k (by omega)

/-- What has been written is read again. -/
theorem extract_overwrite {ys : List β} (hlen : i + ys.length = last) (hlast : last ≤ xs.size) :
    ((overwrite i ys xs).extract i last).toList = ys := by
  subst hlen
  refine List.ext_getElem? fun k => ?_
  rw [getElem?_extract (by rw [size_overwrite]; exact hlast)]
  by_cases hk : k < ys.length
  · rw [if_pos (by omega), getElem?_overwrite ys i xs hlast k hk]
  · rw [if_neg (by omega), List.getElem?_eq_none (Nat.le_of_not_lt hk)]

theorem extract_overwrite_of_apart {ys : List β} (hlast : last ≤ xs.size)
    (hapart : last ≤ i ∨ i + ys.length ≤ first) :
    ((overwrite i ys xs).extract first last).toList = (xs.extract first last).toList := by
  refine List.ext_getElem? fun k => ?_
  rw [getElem?_extract (by rw [size_overwrite]; exact hlast), getElem?_extract hlast]
  by_cases hk : first + k < last
  · rw [if_pos hk, if_pos hk, getElem?_overwrite_of_apart ys i xs (by omega)]
  · rw [if_neg hk, if_neg hk]

end Parts

namespace PackedColumns

variable {α : Type} {packed packed' : PackedColumns α} {col : Column α} {first last : Nat}

/-! ### One column -/

/-- The part between two boundaries lies in both arrays. -/
structure Holds (packed : PackedColumns α) (first last : Nat) : Prop where
  le : first ≤ last
  le_rowIds : last ≤ packed.rowIds.size
  le_values : last ≤ packed.values.size

/-- The entries between two boundaries. -/
def entries (packed : PackedColumns α) (first last : Nat) : Column α :=
  (packed.rowIds.extract first last).toList.zip (packed.values.extract first last).toList

theorem column_eq_ok :
    packed.column first last = .ok col ↔ packed.Holds first last ∧ packed.entries first last = col := by
  unfold column
  rw [Outcome.bind_eq_ok]
  constructor
  · intro h
    obtain ⟨rows, hrows, h⟩ := h
    obtain ⟨values, hvalues, h⟩ := Outcome.bind_eq_ok.mp h
    obtain ⟨⟨hle, hrowIds⟩, rfl⟩ := slice_eq_ok.mp hrows
    obtain ⟨⟨-, hvals⟩, rfl⟩ := slice_eq_ok.mp hvalues
    exact ⟨⟨hle, hrowIds, hvals⟩, Except.ok.inj h⟩
  · intro h
    obtain ⟨h, rfl⟩ := h
    exact ⟨_, slice_eq_ok.mpr ⟨⟨h.le, h.le_rowIds⟩, rfl⟩,
      Outcome.bind_eq_ok.mpr ⟨_, slice_eq_ok.mpr ⟨⟨h.le, h.le_values⟩, rfl⟩, rfl⟩⟩

theorem column_eq_error (h : ¬ packed.Holds first last) :
    packed.column first last = .error (.fault .badBoundaries) := by
  unfold column slice
  by_cases hrowIds : first ≤ last ∧ last ≤ packed.rowIds.size
  · have hvalues : ¬ (first ≤ last ∧ last ≤ packed.values.size) :=
      fun hc => h ⟨hc.1, hrowIds.2, hc.2⟩
    rw [if_pos hrowIds, Outcome.ok_bind, if_neg hvalues]
    rfl
  · rw [if_neg hrowIds]
    rfl

theorem getElem?_entries (h : packed.Holds first last) {k r : Nat} {x : α} :
    (packed.entries first last)[k]? = some (r, x) ↔
      first + k < last ∧ packed.rowIds[first + k]? = some r ∧ packed.values[first + k]? = some x := by
  rw [entries, List.getElem?_zip_eq_some, getElem?_extract h.le_rowIds, getElem?_extract h.le_values]
  by_cases hk : first + k < last
  · simp [hk]
  · simp [hk]

theorem length_entries (h : packed.Holds first last) :
    (packed.entries first last).length = last - first := by
  have := h.le_rowIds
  have := h.le_values
  rw [entries, List.length_zip, Array.length_toList, Array.length_toList, Array.size_extract,
    Array.size_extract]
  omega

/-- The arrays with the entries between two boundaries sorted. -/
def sorted (packed : PackedColumns α) (first last : Nat) : PackedColumns α where
  rowIds := overwrite first ((packed.entries first last).sort.map Prod.fst) packed.rowIds
  values := overwrite first ((packed.entries first last).sort.map Prod.snd) packed.values

theorem sortColumn_eq_ok : packed.sortColumn first last = .ok packed' ↔
    packed.Holds first last ∧ packed.sorted first last = packed' := by
  unfold sortColumn
  rw [Outcome.bind_eq_ok]
  constructor
  · intro h
    obtain ⟨col, hcol, h⟩ := h
    obtain ⟨hholds, rfl⟩ := column_eq_ok.mp hcol
    exact ⟨hholds, Except.ok.inj h⟩
  · intro h
    obtain ⟨hholds, rfl⟩ := h
    exact ⟨_, column_eq_ok.mpr ⟨hholds, rfl⟩, rfl⟩

/-- Where columns can lie is a matter of the sizes of the arrays. -/
theorem holds_congr {a b : Nat} (hrowIds : packed'.rowIds.size = packed.rowIds.size)
    (hvalues : packed'.values.size = packed.values.size) : packed'.Holds a b ↔ packed.Holds a b :=
  ⟨fun h => ⟨h.le, hrowIds ▸ h.le_rowIds, hvalues ▸ h.le_values⟩,
    fun h => ⟨h.le, hrowIds ▸ h.le_rowIds, hvalues ▸ h.le_values⟩⟩

theorem holds_sorted {a b : Nat} : (packed.sorted first last).Holds a b ↔ packed.Holds a b :=
  holds_congr (size_overwrite _ _ _) (size_overwrite _ _ _)

theorem length_sort_entries (h : packed.Holds first last) :
    first + (packed.entries first last).sort.length = last := by
  have := h.le
  rw [(packed.entries first last).sort_perm.length_eq, length_entries h]
  omega

/-- **Sorting a column puts its sorted entries in its place.** -/
theorem entries_sorted (h : packed.Holds first last) :
    (packed.sorted first last).entries first last = (packed.entries first last).sort := by
  have hlen := length_sort_entries h
  have hrows : ((packed.sorted first last).rowIds.extract first last).toList
      = (packed.entries first last).sort.map Prod.fst :=
    extract_overwrite (by rw [List.length_map, hlen]) h.le_rowIds
  have hvalues : ((packed.sorted first last).values.extract first last).toList
      = (packed.entries first last).sort.map Prod.snd :=
    extract_overwrite (by rw [List.length_map, hlen]) h.le_values
  rw [entries, hrows, hvalues]
  exact (List.zip_of_prod rfl rfl).symm

/-- Entries before and after the column that is sorted stay as they are. -/
theorem entries_sorted_of_apart {a b : Nat} (h : packed.Holds first last) (hab : packed.Holds a b)
    (hapart : b ≤ first ∨ last ≤ a) :
    (packed.sorted first last).entries a b = packed.entries a b := by
  have hlen := length_sort_entries h
  have hrows : ((packed.sorted first last).rowIds.extract a b).toList
      = (packed.rowIds.extract a b).toList :=
    extract_overwrite_of_apart hab.le_rowIds (by rw [List.length_map, hlen]; exact hapart)
  have hvalues : ((packed.sorted first last).values.extract a b).toList
      = (packed.values.extract a b).toList :=
    extract_overwrite_of_apart hab.le_values (by rw [List.length_map, hlen]; exact hapart)
  rw [entries, hrows, hvalues, entries]

/-! ### All columns -/

/-- The entries between each two boundaries that follow one another. -/
def entriesBetween (packed : PackedColumns α) : List Nat → List (Column α)
  | first :: last :: offsets => packed.entries first last :: packed.entriesBetween (last :: offsets)
  | _ => []

theorem columns_ok : ∀ {offsets : List Nat}, offsets.IsChain packed.Holds →
    packed.columns offsets = .ok (packed.entriesBetween offsets)
  | [], _ => rfl
  | [_], _ => rfl
  | first :: last :: offsets, h => by
      obtain ⟨hfirst, hrest⟩ := List.isChain_cons_cons.mp h
      rw [columns, column_eq_ok.mpr ⟨hfirst, rfl⟩, Outcome.ok_bind, columns_ok hrest]
      rfl

/-- Columns after the one that is sorted stay as they are. -/
theorem entriesBetween_sorted (h : packed.Holds first last) (offsets : List Nat) :
    ∀ {next : Nat}, last ≤ next → (next :: offsets).IsChain packed.Holds →
      (packed.sorted first last).entriesBetween (next :: offsets)
        = packed.entriesBetween (next :: offsets) := by
  induction offsets with
  | nil => exact fun _ _ => rfl
  | cons after offsets ih =>
      intro next hnext hchain
      obtain ⟨hcol, hrest⟩ := List.isChain_cons_cons.mp hchain
      rw [entriesBetween, entriesBetween, entries_sorted_of_apart h hcol (Or.inr hnext),
        ih (Nat.le_trans hnext hcol.le) hrest]

/-- `packed'` is `packed` with the columns at the given boundaries sorted in their places. -/
structure SortedAt (offsets : List Nat) (packed packed' : PackedColumns α) : Prop where
  size_rowIds : packed'.rowIds.size = packed.rowIds.size
  size_values : packed'.values.size = packed.values.size
  entriesBetween : packed'.entriesBetween offsets = (packed.entriesBetween offsets).map Column.sort
  before : ∀ a b, packed.Holds a b → (∀ first ∈ offsets.head?, b ≤ first) →
    packed'.entries a b = packed.entries a b

/-- **Columns that lie in the arrays are sorted in their places.** -/
theorem sortColumns_ok : ∀ {offsets : List Nat} {packed : PackedColumns α},
    offsets.IsChain packed.Holds →
      ∃ packed', sortColumns offsets packed = .ok packed' ∧ SortedAt offsets packed packed'
  | [], packed, _ => ⟨packed, rfl, rfl, rfl, rfl, fun _ _ _ _ => rfl⟩
  | [_], packed, _ => ⟨packed, rfl, rfl, rfl, rfl, fun _ _ _ _ => rfl⟩
  | first :: last :: offsets, packed, h => by
      obtain ⟨hfirst, hrest⟩ := List.isChain_cons_cons.mp h
      have hrest' : (last :: offsets).IsChain (packed.sorted first last).Holds :=
        hrest.imp fun _ _ hab => holds_sorted.mpr hab
      obtain ⟨packed', hok, hsorted⟩ := sortColumns_ok hrest'
      refine ⟨packed', ?_, ?_, ?_, ?_, ?_⟩
      · rw [sortColumns, sortColumn_eq_ok.mpr ⟨hfirst, rfl⟩]
        exact hok
      · exact hsorted.size_rowIds.trans (size_overwrite _ _ _)
      · exact hsorted.size_values.trans (size_overwrite _ _ _)
      · -- Sorting the columns after the first one leaves it alone, and it left them alone.
        have hkept : packed'.entries first last = (packed.sorted first last).entries first last :=
          hsorted.before first last (holds_sorted.mpr hfirst) (by simp)
        rw [PackedColumns.entriesBetween, PackedColumns.entriesBetween, List.map_cons, hkept,
          entries_sorted hfirst, hsorted.entriesBetween,
          entriesBetween_sorted hfirst offsets (Nat.le_refl last) hrest]
      · intro a b hab hb
        have hbefore : b ≤ first := hb first (by simp)
        rw [hsorted.before a b (holds_sorted.mpr hab) (by simpa using Nat.le_trans hbefore hfirst.le),
          entries_sorted_of_apart hfirst hab (Or.inl hbefore)]

/-- **If some column does not lie in the arrays, sorting faults.** -/
theorem sortColumns_eq_error : ∀ {offsets : List Nat} {packed : PackedColumns α},
    ¬ offsets.IsChain packed.Holds → sortColumns offsets packed = .error (.fault .badBoundaries)
  | [], _, h => absurd List.isChain_nil h
  | [_], _, h => absurd (List.isChain_singleton _) h
  | first :: last :: offsets, packed, h => by
      rw [List.isChain_cons_cons, not_and] at h
      rw [sortColumns]
      by_cases hfirst : packed.Holds first last
      · have hrest : ¬ (last :: offsets).IsChain (packed.sorted first last).Holds :=
          fun hc => h hfirst (hc.imp fun _ _ hab => holds_sorted.mp hab)
        rw [sortColumn_eq_ok.mpr ⟨hfirst, rfl⟩, Outcome.ok_bind, sortColumns_eq_error hrest]
      · rw [sortColumn, column_eq_error hfirst]
        rfl

end PackedColumns

end EliminationOrder

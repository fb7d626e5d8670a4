/-
When packed arrays describe a matrix.

`WellFormed` says it position by position: where the boundaries stand, that every row exists,
and that no two positions of one column have the same row.  `Packable` says it column by
column, of the entries between two boundaries that follow one another, which is what sorting
and checking work on.  They are the same (`wellFormed_iff_packable`), since boundaries that
start at zero and end where the arrays do leave no position out (`exists_inColumn`).
-/
import EliminationOrder.Proofs.Matrix.PackedColumns

namespace EliminationOrder

variable {offsets : List Nat} {first last j k : Nat}

/-! ### Boundaries -/

/-- Position `k` of packed arrays belongs to column `j`. -/
def InColumn (offsets : List Nat) (j k : Nat) : Prop :=
  ∃ first last, offsets[j]? = some first ∧ offsets[j + 1]? = some last ∧ first ≤ k ∧ k < last

theorem inColumn_iff (hfirst : offsets[j]? = some first) (hlast : offsets[j + 1]? = some last) :
    InColumn offsets j k ↔ first ≤ k ∧ k < last := by
  constructor
  · intro h
    obtain ⟨first', last', hfirst', hlast', h⟩ := h
    obtain rfl : first' = first := Option.some.inj (hfirst'.symm.trans hfirst)
    obtain rfl : last' = last := Option.some.inj (hlast'.symm.trans hlast)
    exact h
  · exact fun h => ⟨first, last, hfirst, hlast, h⟩

theorem boundaries_iff {ncols : Nat} (hlen : offsets.length = ncols + 1) :
    Boundaries last offsets ↔ offsets[0]? = some 0 ∧
      (∀ j b c, offsets[j]? = some b → offsets[j + 1]? = some c → b ≤ c) ∧
        offsets[ncols]? = some last := by
  have hsteps : offsets.Pairwise (· ≤ ·) ↔
      ∀ j b c, offsets[j]? = some b → offsets[j + 1]? = some c → b ≤ c := by
    rw [← List.isChain_iff_pairwise, List.isChain_iff_getElem]
    constructor
    · intro h j b c hb hc
      obtain ⟨hj, rfl⟩ := List.getElem?_eq_some_iff.mp hc
      obtain ⟨_, rfl⟩ := List.getElem?_eq_some_iff.mp hb
      exact h j hj
    · intro h j hj
      exact h j _ _ (List.getElem?_eq_getElem _) (List.getElem?_eq_getElem hj)
  rw [Boundaries, List.head?_eq_getElem?, List.getLast?_eq_getElem?, hlen, Nat.add_sub_cancel,
    hsteps]
  exact ⟨fun h => ⟨h.1, h.2.2, h.2.1⟩, fun h => ⟨h.1, h.2.2, h.2.1⟩⟩

theorem Boundaries.le_last (h : Boundaries last offsets) : ∀ b ∈ offsets, b ≤ last := by
  obtain ⟨-, hlast, hpairwise⟩ := h
  obtain ⟨before, rfl⟩ := List.getLast?_eq_some_iff.mp hlast
  intro b hb
  rcases List.mem_append.mp hb with hb | hb
  · exact (List.pairwise_append.mp hpairwise).2.2 b hb last (by simp)
  · exact Nat.le_of_eq (List.mem_singleton.mp hb)

/-- Between the first boundary and the last one, every position belongs to a column. -/
theorem exists_inColumn : ∀ {offsets : List Nat} {first last : Nat},
    offsets.head? = some first → offsets.getLast? = some last → first ≤ k → k < last →
      ∃ j, InColumn offsets j k
  | [b], first, last, hfirst, hlast, hle, hlt => by
      simp only [List.head?_cons, List.getLast?_singleton, Option.some.injEq] at hfirst hlast
      omega
  | b :: c :: offsets, first, last, hfirst, hlast, hle, hlt => by
      obtain rfl : b = first := by simpa using hfirst
      by_cases hk : k < c
      · exact ⟨0, b, c, rfl, rfl, hle, hk⟩
      · have hlast' : (c :: offsets).getLast? = some last := by
          rw [← hlast, List.getLast?_cons_cons]
        obtain ⟨j, b', c', hb, hc, hcol⟩ := exists_inColumn rfl hlast' (Nat.le_of_not_lt hk) hlt
        exact ⟨j + 1, b', c', hb, hc, hcol⟩

/-- Arrays that describe a matrix: columns in order, of rows that exist, none of them twice in a column. -/
structure WellFormed {α : Type} (nrows ncols : Nat) (offsets rowIds : List Nat) (values : List α) :
    Prop where
  length_offsets : offsets.length = ncols + 1
  first : offsets[0]? = some 0
  steps : ∀ j b c, offsets[j]? = some b → offsets[j + 1]? = some c → b ≤ c
  last : offsets[ncols]? = some rowIds.length
  length_values : values.length = rowIds.length
  row_lt : ∀ r ∈ rowIds, r < nrows
  distinct : ∀ j k l, InColumn offsets j k → InColumn offsets j l →
    rowIds[k]? = rowIds[l]? → k = l

namespace PackedColumns

variable {α : Type} {packed : PackedColumns α}

theorem isChain_holds (h : Boundaries packed.rowIds.size offsets)
    (hvalues : packed.values.size = packed.rowIds.size) : offsets.IsChain packed.Holds := by
  refine (h.2.2.imp_of_mem fun {b c} _ hc hbc => ?_).isChain
  have hle := h.le_last c hc
  exact ⟨hbc, hle, by rw [hvalues]; exact hle⟩

theorem holds_of_isChain (h : offsets.IsChain packed.Holds) (hfirst : offsets[j]? = some first)
    (hlast : offsets[j + 1]? = some last) : packed.Holds first last := by
  obtain ⟨hj, rfl⟩ := List.getElem?_eq_some_iff.mp hlast
  obtain ⟨_, rfl⟩ := List.getElem?_eq_some_iff.mp hfirst
  exact List.isChain_iff_getElem.mp h j hj

/-! ### The columns -/

theorem getElem?_entriesBetween (packed : PackedColumns α) : ∀ {offsets : List Nat} {j : Nat},
    offsets[j]? = some first → offsets[j + 1]? = some last →
      (packed.entriesBetween offsets)[j]? = some (packed.entries first last)
  | [], _, hfirst, _ => by simp at hfirst
  | [_], _, _, hlast => by simp at hlast
  | b :: c :: offsets, 0, hfirst, hlast => by
      obtain rfl : b = first := by simpa using hfirst
      obtain rfl : c = last := by simpa using hlast
      rfl
  | b :: c :: offsets, j + 1, hfirst, hlast => by
      rw [entriesBetween, List.getElem?_cons_succ]
      exact getElem?_entriesBetween packed hfirst hlast

theorem length_entriesBetween (packed : PackedColumns α) : ∀ offsets : List Nat,
    (packed.entriesBetween offsets).length = offsets.length - 1
  | [] => rfl
  | [_] => rfl
  | _ :: c :: offsets => by
      rw [entriesBetween, List.length_cons, length_entriesBetween packed (c :: offsets)]
      simp

/-- The columns are the entries between two boundaries that follow one another. -/
theorem mem_entriesBetween {col : Column α} : col ∈ packed.entriesBetween offsets ↔
    ∃ j first last, offsets[j]? = some first ∧ offsets[j + 1]? = some last ∧
      packed.entries first last = col := by
  constructor
  · intro hcol
    obtain ⟨j, hj⟩ := List.getElem?_of_mem hcol
    have hlt : j + 1 < offsets.length := by
      have := (List.getElem?_eq_some_iff.mp hj).1
      rw [length_entriesBetween] at this
      omega
    have hfirst : offsets[j]? = some offsets[j] := List.getElem?_eq_getElem _
    have hlast : offsets[j + 1]? = some offsets[j + 1] := List.getElem?_eq_getElem hlt
    have hentries := packed.getElem?_entriesBetween hfirst hlast
    exact ⟨j, _, _, hfirst, hlast, Option.some.inj (hentries.symm.trans hj)⟩
  · intro h
    obtain ⟨j, first, last, hfirst, hlast, rfl⟩ := h
    exact List.mem_of_getElem? (packed.getElem?_entriesBetween hfirst hlast)

theorem mem_entries (h : packed.Holds first last) {r : Nat} {x : α} :
    (r, x) ∈ packed.entries first last ↔ ∃ k, (first ≤ k ∧ k < last) ∧
      packed.rowIds[k]? = some r ∧ packed.values[k]? = some x := by
  constructor
  · intro hmem
    obtain ⟨k, hk⟩ := List.getElem?_of_mem hmem
    obtain ⟨hlt, hrow, hvalue⟩ := (getElem?_entries h).mp hk
    exact ⟨first + k, ⟨Nat.le_add_right _ _, hlt⟩, hrow, hvalue⟩
  · intro hk
    obtain ⟨k, ⟨hle, hlt⟩, hrow, hvalue⟩ := hk
    obtain ⟨t, rfl⟩ := Nat.exists_eq_add_of_le hle
    exact List.mem_of_getElem? ((getElem?_entries h).mpr ⟨hlt, hrow, hvalue⟩)

/-- A column lists no row twice when no two of its positions do. -/
theorem distinct_entries (h : packed.Holds first last) :
    (packed.entries first last).Distinct ↔
      ∀ k l, first ≤ k ∧ k < last → first ≤ l ∧ l < last →
        packed.rowIds[k]? = packed.rowIds[l]? → k = l := by
  have hrows : (packed.entries first last).map Prod.fst
      = (packed.rowIds.extract first last).toList := by
    refine List.map_fst_zip ?_
    have := h.le_rowIds
    have := h.le_values
    rw [Array.length_toList, Array.length_toList, Array.size_extract, Array.size_extract]
    omega
  have hread : ∀ t, first + t < last →
      (packed.rowIds.extract first last).toList[t]? = packed.rowIds[first + t]? := by
    intro t ht
    rw [getElem?_extract h.le_rowIds, if_pos ht]
  have hlen : (packed.rowIds.extract first last).toList.length = last - first := by
    have := h.le_rowIds
    rw [Array.length_toList, Array.size_extract]
    omega
  rw [Column.Distinct, hrows, List.nodup_iff_getElem?_ne_getElem?]
  constructor
  · intro hne k l hk hl heq
    obtain ⟨s, rfl⟩ := Nat.exists_eq_add_of_le hk.1
    obtain ⟨t, rfl⟩ := Nat.exists_eq_add_of_le hl.1
    rw [← hread s hk.2, ← hread t hl.2] at heq
    rcases Nat.lt_trichotomy s t with hlt | rfl | hgt
    · exact absurd heq (hne s t hlt (by omega))
    · rfl
    · exact absurd heq.symm (hne t s hgt (by omega))
  · intro heq s t hst ht hsame
    rw [hread s (by omega), hread t (by omega)] at hsame
    have := heq (first + s) (first + t) (by omega) (by omega) hsame
    omega

/-- The columns hold as many entries as lie between the first boundary and the last one. -/
theorem length_flatten_entriesBetween : ∀ {offsets : List Nat} {first last : Nat},
    offsets.IsChain packed.Holds → offsets.head? = some first → offsets.getLast? = some last →
      first + (packed.entriesBetween offsets).flatten.length = last
  | [b], first, last, _, hfirst, hlast => by
      simp only [List.head?_cons, List.getLast?_singleton, Option.some.injEq] at hfirst hlast
      exact hfirst.symm.trans hlast
  | b :: c :: offsets, first, last, h, hfirst, hlast => by
      obtain rfl : b = first := by simpa using hfirst
      obtain ⟨hcol, hrest⟩ := List.isChain_cons_cons.mp h
      have hlast' : (c :: offsets).getLast? = some last := by
        rw [← hlast, List.getLast?_cons_cons]
      have hrest' := length_flatten_entriesBetween hrest rfl hlast'
      have := hcol.le
      rw [entriesBetween, List.flatten_cons, List.length_append, length_entries hcol]
      omega

/-! ### The two descriptions -/

/-- What packed columns have to be like, in whatever order the rows of each column stand. -/
structure Packable (nrows ncols : Nat) (offsets : List Nat) (packed : PackedColumns α) : Prop where
  length_offsets : offsets.length = ncols + 1
  boundaries : Boundaries packed.rowIds.size offsets
  size_values : packed.values.size = packed.rowIds.size
  inRange : ∀ col ∈ packed.entriesBetween offsets, col.InRange nrows
  distinct : ∀ col ∈ packed.entriesBetween offsets, col.Distinct

theorem Packable.isChain {nrows ncols : Nat} (h : Packable nrows ncols offsets packed) :
    offsets.IsChain packed.Holds :=
  isChain_holds h.boundaries h.size_values

/-- Each column has its two boundaries. -/
theorem Packable.exists_boundaries {nrows ncols : Nat} (h : Packable nrows ncols offsets packed)
    (hj : j < ncols) : ∃ first last, offsets[j]? = some first ∧ offsets[j + 1]? = some last ∧
      packed.Holds first last ∧ (packed.entries first last).Distinct := by
  have hlt : j + 1 < offsets.length := by
    rw [h.length_offsets]
    omega
  have hfirst : offsets[j]? = some offsets[j] := List.getElem?_eq_getElem _
  have hlast : offsets[j + 1]? = some offsets[j + 1] := List.getElem?_eq_getElem hlt
  exact ⟨_, _, hfirst, hlast, holds_of_isChain h.isChain hfirst hlast,
    h.distinct _ (mem_entriesBetween.mpr ⟨j, _, _, hfirst, hlast, rfl⟩)⟩

theorem getElem?_rowIds_ofLists (rowIds : List Nat) (values : List α) (k : Nat) :
    (ofLists rowIds values).rowIds[k]? = rowIds[k]? :=
  List.getElem?_toArray

theorem getElem?_values_ofLists (rowIds : List Nat) (values : List α) (k : Nat) :
    (ofLists rowIds values).values[k]? = values[k]? :=
  List.getElem?_toArray

theorem wellFormed_iff_packable {nrows ncols : Nat} {rowIds : List Nat}
    {values : List α} : WellFormed nrows ncols offsets rowIds values ↔
      Packable nrows ncols offsets (ofLists rowIds values) := by
  have hrowId := getElem?_rowIds_ofLists rowIds values
  have hvalue := getElem?_values_ofLists rowIds values
  constructor
  · intro h
    have hboundaries : Boundaries rowIds.length offsets :=
      (boundaries_iff h.length_offsets).mpr ⟨h.first, h.steps, h.last⟩
    have hchain : offsets.IsChain (ofLists rowIds values).Holds :=
      isChain_holds hboundaries h.length_values
    refine ⟨h.length_offsets, hboundaries, h.length_values, ?_, ?_⟩
    · rintro col hcol ⟨r, x⟩ he
      obtain ⟨j, b, c, hb, hc, rfl⟩ := mem_entriesBetween.mp hcol
      obtain ⟨k, -, hrow, -⟩ := (mem_entries (holds_of_isChain hchain hb hc)).mp he
      exact h.row_lt r (List.mem_of_getElem? ((hrowId k).symm.trans hrow))
    · intro col hcol
      obtain ⟨j, b, c, hb, hc, rfl⟩ := mem_entriesBetween.mp hcol
      refine (distinct_entries (holds_of_isChain hchain hb hc)).mpr fun k l hk hl heq => ?_
      rw [hrowId, hrowId] at heq
      exact h.distinct j k l ((inColumn_iff hb hc).mpr hk) ((inColumn_iff hb hc).mpr hl) heq
  · intro h
    obtain ⟨hfirst, hsteps, hlast⟩ := (boundaries_iff h.length_offsets).mp h.boundaries
    refine ⟨h.length_offsets, hfirst, hsteps, hlast, h.size_values, ?_, ?_⟩
    · intro r hr
      obtain ⟨k, hk⟩ := List.getElem?_of_mem hr
      have hlt : k < rowIds.length := (List.getElem?_eq_some_iff.mp hk).1
      have hltv : k < values.length := Nat.lt_of_lt_of_eq hlt h.size_values.symm
      obtain ⟨j, b, c, hb, hc, hbc⟩ :=
        exists_inColumn h.boundaries.1 h.boundaries.2.1 (Nat.zero_le k) hlt
      have hmem : (r, values[k]) ∈ (ofLists rowIds values).entries b c := by
        refine (mem_entries (holds_of_isChain h.isChain hb hc)).mpr ⟨k, hbc, ?_, ?_⟩
        · rw [hrowId, hk]
        · rw [hvalue, List.getElem?_eq_getElem hltv]
      exact h.inRange _ (mem_entriesBetween.mpr ⟨j, b, c, hb, hc, rfl⟩) _ hmem
    · intro j k l hk hl heq
      obtain ⟨b, c, hb, hc, hbk⟩ := hk
      have hdistinct := h.distinct _ (mem_entriesBetween.mpr ⟨j, b, c, hb, hc, rfl⟩)
      refine (distinct_entries (holds_of_isChain h.isChain hb hc)).mp hdistinct k l hbk
        ((inColumn_iff hb hc).mp hl) ?_
      rw [hrowId, hrowId]
      exact heq

end PackedColumns

end EliminationOrder

/-
The pattern of a matrix by rows: for each row the columns in which it is not zero, all rows
packed one after the other. It is found by counting. The number of columns of each row says
where the row begins, and then the positions are dealt out in the order of the columns, each
to the next free place of its row, so that every row comes out ascending.

Counting puts every position into its row. Where a group begins is how many keys are smaller
than its own (`getElem?_groupBoundaries`), so the rows of an index tile the list of its
columns, each row as long as the number of its positions. Dealing out a list of positions
fills, in every row, as many places as the list has positions of the row, with the columns of
these positions in order, and writes nowhere else; in this form (`deal_ok`) it is an induction
on the list, in which the next free places are arbitrary as long as what is still to come has
room.

An index of columns therefore lists, for every row, what the columns enter there one after
the other, and that is the index by which a sparse matrix is defined (`rows_eq_rowIndex`).
Nothing is asked of the columns: they need not be sorted, nor in range.
-/
import EliminationOrder.Matrix.Sparse

namespace EliminationOrder

/-! ### Groups by counting -/

/-- Each number of a list with all those before it, and `sum`, added. -/
def runningSums (sum : Nat) : List Nat → List Nat
  | [] => []
  | n :: ns => (sum + n) :: runningSums (sum + n) ns

/-- Counts each key, one place further on than its own. -/
def countKeys : List Nat → Array Nat → Array Nat
  | [], counts => counts
  | k :: keys, counts => countKeys keys (counts.modify (k + 1) (· + 1))

/--
The boundaries of groups: with keys below `n` put in order, group `k` lies between
boundaries `k` and `k + 1`.
-/
def groupBoundaries (n : Nat) (keys : List Nat) : List Nat :=
  runningSums 0 (countKeys keys (Array.replicate (n + 1) 0)).toList

theorem getElem?_countKeys (keys : List Nat) (k : Nat) :
    ∀ counts : Array Nat,
      (countKeys keys counts)[k + 1]? = counts[k + 1]?.map (· + keys.count k) := by
  induction keys with
  | nil =>
      intro counts
      simp [countKeys]
  | cons key keys ih =>
      intro counts
      rw [countKeys, ih, Array.getElem?_modify]
      by_cases h : key = k
      · subst h
        simp [Function.comp_def, Nat.add_assoc, Nat.add_comm 1]
      · simp [h]

theorem getElem?_countKeys_zero (keys : List Nat) :
    ∀ counts : Array Nat, (countKeys keys counts)[0]? = counts[0]? := by
  induction keys with
  | nil => exact fun _ => rfl
  | cons key keys ih =>
      intro counts
      rw [countKeys, ih, Array.getElem?_modify]
      simp

theorem size_countKeys (keys : List Nat) :
    ∀ counts : Array Nat, (countKeys keys counts).size = counts.size := by
  induction keys with
  | nil => exact fun _ => rfl
  | cons key keys ih =>
      intro counts
      rw [countKeys, ih, Array.size_modify]

theorem length_runningSums (ns : List Nat) : ∀ sum, (runningSums sum ns).length = ns.length := by
  induction ns with
  | nil => exact fun _ => rfl
  | cons n ns ih => intro sum; simp [runningSums, ih]

/-- Numbers that grow by the elements of a list are its running sums. -/
theorem getElem?_runningSums (ns : List Nat) :
    ∀ {f : Nat → Nat}, (∀ i n, ns[i]? = some n → f (i + 1) = f i + n) →
      ∀ i, i < ns.length → (runningSums (f 0) ns)[i]? = some (f (i + 1)) := by
  induction ns with
  | nil =>
      intro f _ i hi
      exact absurd hi (Nat.not_lt_zero i)
  | cons n ns ih =>
      intro f hf i hi
      have hfirst : f 1 = f 0 + n := hf 0 n rfl
      rw [runningSums, ← hfirst]
      cases i with
      | zero => rfl
      | succ i =>
          exact ih (f := fun i => f (i + 1)) (fun i n hn => hf (i + 1) n hn) i
            (Nat.lt_of_succ_lt_succ hi)

theorem countP_lt_succ (keys : List Nat) (k : Nat) :
    keys.countP (· < k + 1) = keys.countP (· < k) + keys.count k := by
  induction keys with
  | nil => rfl
  | cons key keys ih =>
      rw [List.countP_cons, List.countP_cons, List.count_cons, ih]
      rcases Nat.lt_trichotomy key k with hlt | heq | hgt
      · simp [hlt, Nat.lt_succ_of_lt hlt, Nat.ne_of_lt hlt]
        omega
      · simp [heq]
        omega
      · simp [Nat.not_lt.mpr (Nat.le_of_lt hgt), Nat.not_lt.mpr hgt, Nat.ne_of_gt hgt]

theorem length_groupBoundaries (n : Nat) (keys : List Nat) :
    (groupBoundaries n keys).length = n + 1 := by
  rw [groupBoundaries, length_runningSums, Array.length_toList, size_countKeys, Array.size_replicate]

/-- **A group begins after as many keys as are smaller than its own.** -/
theorem getElem?_groupBoundaries {n k : Nat} (keys : List Nat) (hk : k ≤ n) :
    (groupBoundaries n keys)[k]? = some (keys.countP (· < k)) := by
  have hsize : (countKeys keys (Array.replicate (n + 1) 0)).size = n + 1 := by
    rw [size_countKeys, Array.size_replicate]
  have hshift : ∀ i, keys.countP (· + 1 < i + 1) = keys.countP (· < i) := by
    intro i
    simp only [Nat.add_lt_add_iff_right]
  -- Keys are counted one place further on, so the sum up to place `i` counts those before place `i`.
  have hstep : ∀ i count, (countKeys keys (Array.replicate (n + 1) 0)).toList[i]? = some count →
      keys.countP (· + 1 < i + 1) = keys.countP (· + 1 < i) + count := by
    intro i count hcount
    rw [Array.getElem?_toList] at hcount
    have hi : i < n + 1 := Nat.lt_of_lt_of_eq (Array.getElem?_eq_some_iff.mp hcount).1 hsize
    cases i with
    | zero =>
        rw [getElem?_countKeys_zero, Array.getElem?_replicate, if_pos hi, Option.some.injEq] at hcount
        rw [← hcount, hshift]
        simp
    | succ i =>
        rw [getElem?_countKeys, Array.getElem?_replicate, if_pos hi, Option.map_some,
          Option.some.injEq, Nat.zero_add] at hcount
        rw [← hcount, hshift, hshift]
        exact countP_lt_succ keys i
  have hzero : keys.countP (· + 1 < 0) = 0 := by simp
  have hsums := getElem?_runningSums _ (f := fun i => keys.countP (· + 1 < i)) hstep k
    (by rw [Array.length_toList, hsize]; omega)
  simp only [hzero, hshift] at hsums
  exact hsums

/-! ### The pattern by rows -/

/--
The positions of the entries in column `j` that are not zero. Rows that do not exist are
passed over: nothing has been checked yet where this is read.
-/
def columnPositions {α : Type} [Entry α] (nrows j : Nat) (col : Column α) : List (Nat × Nat) :=
  (col.filter fun e => !Entry.isZero e.2 && e.1 < nrows).map fun e => (e.1, j)

/-- The positions of the entries that are not zero, column after column from column `j` on. -/
def positionsFrom {α : Type} [Entry α] (nrows : Nat) : Nat → List (Column α) → List (Nat × Nat)
  | _, [] => []
  | j, col :: cols => columnPositions nrows j col ++ positionsFrom nrows (j + 1) cols

/-- For each row the columns in which it is not zero, one row after the other. -/
structure PackedRows where
  offsets : Array Nat
  columnIds : Array Nat

namespace PackedRows

/-- Writes the column of each position to the next free place of its row. -/
def deal : List (Nat × Nat) → Array Nat → Array Nat → Outcome (Array Nat)
  | [], _, columnIds => .ok columnIds
  | (r, c) :: positions, next, columnIds =>
    match next[r]? with
    | none => .error (.outOfRange r next.size)
    | some k =>
      if k < columnIds.size then
        deal positions (next.setIfInBounds r (k + 1)) (columnIds.setIfInBounds k c)
      else
        .error (.outOfRange k columnIds.size)

/-- The pattern by rows: rows are counted to find where each begins, and then filled. -/
def ofPositions (nrows : Nat) (positions : List (Nat × Nat)) : Outcome PackedRows := do
  let offsets := (groupBoundaries nrows (positions.map Prod.fst)).toArray
  let columnIds ← deal positions offsets (Array.replicate (offsets.back?.getD 0) 0)
  return { offsets, columnIds }

/-- The rows have `nrows` beginnings and one end, that of the columns listed for them. -/
def Complete (nrows : Nat) (index : PackedRows) : Prop :=
  index.offsets.size = nrows + 1 ∧ index.offsets.back? = some index.columnIds.size

instance (nrows : Nat) (index : PackedRows) : Decidable (index.Complete nrows) :=
  inferInstanceAs (Decidable (_ ∧ _))

/-- The columns listed for row `i`. -/
def row (index : PackedRows) (i : Nat) : List Nat :=
  (index.columnIds.extract (index.offsets[i]?.getD 0) (index.offsets[i + 1]?.getD 0)).toList

/-- The columns listed for each of `nrows` rows. -/
def rows (nrows : Nat) (index : PackedRows) : Array (List Nat) :=
  ((List.range nrows).map index.row).toArray

/-! ### Dealing out -/

/-- The columns of the positions in row `r`, in order. -/
def columnsIn (r : Nat) (positions : List (Nat × Nat)) : List Nat :=
  (positions.filter fun p => p.1 == r).map Prod.snd

theorem columnsIn_cons_self (r c : Nat) (positions : List (Nat × Nat)) :
    columnsIn r ((r, c) :: positions) = c :: columnsIn r positions := by
  simp [columnsIn]

theorem columnsIn_cons_ne {r s : Nat} (h : s ≠ r) (c : Nat) (positions : List (Nat × Nat)) :
    columnsIn r ((s, c) :: positions) = columnsIn r positions := by
  simp [columnsIn, h]

theorem length_columnsIn (r : Nat) (positions : List (Nat × Nat)) :
    (columnsIn r positions).length = (positions.map Prod.fst).count r := by
  rw [columnsIn, List.length_map, ← List.countP_eq_length_filter, List.count, List.countP_map]
  rfl

/-- From the next free places of rows below `n` on, the positions to come have room, each row apart from the others. -/
structure Room (n : Nat) (positions : List (Nat × Nat)) (next columnIds : Array Nat)
    (place : Nat → Nat) : Prop where
  next : ∀ r < n, next[r]? = some (place r)
  row_lt : ∀ p ∈ positions, p.1 < n
  fits : ∀ r < n, place r + (columnsIn r positions).length ≤ columnIds.size
  apart : ∀ r s, r < s → s < n → place r + (columnsIn r positions).length ≤ place s

variable {n r c : Nat} {positions : List (Nat × Nat)} {next columnIds : Array Nat}
  {place : Nat → Nat}

/-- There is a place for the first position, and room for the others after it. -/
theorem Room.step (h : Room n ((r, c) :: positions) next columnIds place) :
    place r < columnIds.size ∧
      Room n positions (next.setIfInBounds r (place r + 1)) (columnIds.setIfInBounds (place r) c)
        fun s => if s = r then place r + 1 else place s := by
  have hr : r < n := h.row_lt (r, c) (by simp)
  have hlen := h.fits r hr
  rw [columnsIn_cons_self, List.length_cons] at hlen
  refine ⟨by omega, ⟨?_, fun p hp => h.row_lt p (by simp [hp]), ?_, ?_⟩⟩
  · intro s hs
    by_cases hsr : s = r
    · subst hsr
      have hlt : s < next.size := (Array.getElem?_eq_some_iff.mp (h.next s hs)).1
      simp [hlt]
    · rw [Array.getElem?_setIfInBounds_ne (Ne.symm hsr), if_neg hsr, h.next s hs]
  · intro s hs
    rw [Array.size_setIfInBounds]
    by_cases hsr : s = r
    · subst hsr
      rw [if_pos rfl]
      omega
    · have := h.fits s hs
      rw [columnsIn_cons_ne (Ne.symm hsr)] at this
      rw [if_neg hsr]
      exact this
  · intro s t hst ht
    have hapart := h.apart s t hst ht
    by_cases hsr : s = r
    · subst hsr
      rw [columnsIn_cons_self, List.length_cons] at hapart
      rw [if_pos rfl, if_neg (by omega)]
      omega
    · rw [columnsIn_cons_ne (Ne.symm hsr)] at hapart
      rw [if_neg hsr]
      by_cases htr : t = r
      · subst htr
        rw [if_pos rfl]
        omega
      · rw [if_neg htr]
        exact hapart

/-- **Dealing out fills the room of each row with its columns, in order**, and writes nowhere else. -/
theorem deal_ok (positions : List (Nat × Nat)) :
    ∀ {next columnIds : Array Nat} {place : Nat → Nat},
      Room n positions next columnIds place →
        ∃ filled, deal positions next columnIds = .ok filled ∧ filled.size = columnIds.size ∧
          (∀ r < n, ∀ t < (columnsIn r positions).length,
            filled[place r + t]? = (columnsIn r positions)[t]?) ∧
          ∀ k, (∀ r < n, k < place r ∨ place r + (columnsIn r positions).length ≤ k) →
            filled[k]? = columnIds[k]? := by
  induction positions with
  | nil =>
      intro next columnIds place _
      exact ⟨columnIds, rfl, rfl, fun r _ t ht => absurd ht (Nat.not_lt_zero t), fun _ _ => rfl⟩
  | cons p positions ih =>
      intro next columnIds place h
      obtain ⟨r, c⟩ := p
      have hr : r < n := h.row_lt (r, c) (by simp)
      obtain ⟨hplace, hrest⟩ := h.step
      obtain ⟨filled, hfilled, hsize, hrows, hother⟩ := ih hrest
      have hlen : (columnsIn r ((r, c) :: positions)).length = (columnsIn r positions).length + 1 := by
        rw [columnsIn_cons_self, List.length_cons]
      refine ⟨filled, ?_, by rw [hsize, Array.size_setIfInBounds], ?_, ?_⟩
      · simp only [deal, h.next r hr]
        rw [if_pos hplace]
        exact hfilled
      · intro s hs t ht
        by_cases hsr : s = r
        · subst hsr
          rw [columnsIn_cons_self] at ht ⊢
          cases t with
          | zero =>
              -- The place just filled lies in front of the room that is left.
              have hkept : filled[place s]? = (columnIds.setIfInBounds (place s) c)[place s]? := by
                refine hother _ fun q hq => ?_
                by_cases hqs : q = s
                · exact Or.inl (by simp [hqs])
                · rw [if_neg hqs]
                  rcases Nat.lt_or_gt_of_ne hqs with hlt | hgt
                  · have := h.apart q s hlt hs
                    rw [columnsIn_cons_ne (Ne.symm hqs)] at this
                    exact Or.inr this
                  · have := h.apart s q hgt hq
                    omega
              rw [Nat.add_zero, hkept]
              simp [hplace]
          | succ t =>
              have hnext := hrows s hs t (by simpa using ht)
              rw [if_pos rfl] at hnext
              rw [List.getElem?_cons_succ, ← hnext]
              congr 1
              omega
        · rw [columnsIn_cons_ne (Ne.symm hsr)] at ht ⊢
          have hsame := hrows s hs t ht
          rw [if_neg hsr] at hsame
          exact hsame
      · intro k hk
        have hkr := hk r hr
        have hout : ∀ s < n, k < (if s = r then place r + 1 else place s) ∨
            (if s = r then place r + 1 else place s) + (columnsIn s positions).length ≤ k := by
          intro s hs
          have hks := hk s hs
          by_cases hsr : s = r
          · subst hsr
            rw [if_pos rfl]
            omega
          · rw [columnsIn_cons_ne (Ne.symm hsr)] at hks
            rw [if_neg hsr]
            exact hks
        have hne : place r ≠ k := by omega
        rw [hother k hout, Array.getElem?_setIfInBounds_ne hne]

/-! ### The index -/

/-- Where row `r` begins: after the positions of smaller rows. -/
def begins (positions : List (Nat × Nat)) (r : Nat) : Nat :=
  (positions.map Prod.fst).countP (· < r)

theorem begins_succ (positions : List (Nat × Nat)) (r : Nat) :
    begins positions (r + 1) = begins positions r + (columnsIn r positions).length := by
  rw [begins, countP_lt_succ, length_columnsIn]
  rfl

theorem begins_mono {r s : Nat} (h : r ≤ s) : begins positions r ≤ begins positions s := by
  refine List.countP_mono_left fun k _ hk => ?_
  simp only [decide_eq_true_eq] at hk ⊢
  omega

theorem begins_eq_length (h : ∀ p ∈ positions, p.1 < n) : begins positions n = positions.length := by
  have hall : ∀ k ∈ positions.map Prod.fst, decide (k < n) = true := by
    intro k hk
    obtain ⟨p, hp, rfl⟩ := List.mem_map.mp hk
    exact decide_eq_true (h p hp)
  rw [begins, List.countP_eq_length.mpr hall, List.length_map]

/-- Rows begin one after the other, and there is room for all of them. -/
theorem room_begins (h : ∀ p ∈ positions, p.1 < n) (hsize : columnIds.size = positions.length) :
    Room n positions (groupBoundaries n (positions.map Prod.fst)).toArray columnIds
      (begins positions) where
  next r hr := by
    rw [List.getElem?_toArray]
    exact getElem?_groupBoundaries _ (Nat.le_of_lt hr)
  row_lt := h
  fits r hr := by
    rw [← begins_succ, hsize, ← begins_eq_length h]
    exact begins_mono hr
  apart r s hrs _ := by
    rw [← begins_succ]
    exact begins_mono hrs

/-- **Every list of positions in existing rows can be indexed**, and each row lists its columns in order. -/
theorem ofPositions_ok (h : ∀ p ∈ positions, p.1 < n) :
    ∃ index, ofPositions n positions = .ok index ∧ index.Complete n ∧
      ∀ r < n, index.row r = columnsIn r positions := by
  let offsets := (groupBoundaries n (positions.map Prod.fst)).toArray
  have hoffset : ∀ r ≤ n, offsets[r]? = some (begins positions r) := by
    intro r hr
    rw [List.getElem?_toArray]
    exact getElem?_groupBoundaries _ hr
  have hsize : offsets.size = n + 1 := length_groupBoundaries n _
  have hback : offsets.back? = some positions.length := by
    rw [Array.back?_eq_getElem?, hsize, Nat.add_sub_cancel, hoffset n (Nat.le_refl n),
      begins_eq_length h]
  have hempty : (Array.replicate (offsets.back?.getD 0) 0).size = positions.length := by
    rw [Array.size_replicate, hback]
    rfl
  obtain ⟨filled, hfilled, hfilledSize, hrows, -⟩ := deal_ok positions (room_begins h hempty)
  have hfilledSize' : filled.size = positions.length := hfilledSize.trans hempty
  refine ⟨⟨offsets, filled⟩, ?_, ⟨hsize, ?_⟩, ?_⟩
  · rw [ofPositions]
    show deal positions offsets _ >>= _ = _
    rw [hfilled]
    rfl
  · rw [hback, hfilledSize']
  · intro r hr
    have hend : begins positions (r + 1) ≤ filled.size := by
      rw [hfilledSize', ← begins_eq_length h]
      exact begins_mono hr
    rw [begins_succ] at hend
    simp only [row, hoffset r (Nat.le_of_lt hr), hoffset (r + 1) hr, Option.getD_some, begins_succ]
    refine List.ext_getElem? fun t => ?_
    rw [Array.getElem?_toList, Array.getElem?_extract]
    by_cases ht : t < (columnsIn r positions).length
    · rw [if_pos (by omega), hrows r hr t ht]
    · rw [if_neg (by omega), List.getElem?_eq_none (Nat.le_of_not_lt ht)]

/-! ### The index of columns -/

section Columns

variable {α : Type} [Entry α]

/-- How many entries of a column are not zero and in row `r`. -/
def hits (r : Nat) (col : Column α) : Nat :=
  col.countP fun e => e.1 == r && !Entry.isZero e.2

theorem columnsIn_append (r : Nat) (ps qs : List (Nat × Nat)) :
    columnsIn r (ps ++ qs) = columnsIn r ps ++ columnsIn r qs := by
  simp [columnsIn]

theorem row_lt_of_mem_positionsFrom (nrows : Nat) (columns : List (Column α)) :
    ∀ j, ∀ p ∈ positionsFrom nrows j columns, p.1 < nrows := by
  induction columns with
  | nil => exact fun _ p hp => absurd hp List.not_mem_nil
  | cons col cols ih =>
      intro j p hp
      rcases List.mem_append.mp hp with hcol | hcols
      · obtain ⟨e, he, rfl⟩ := List.mem_map.mp hcol
        have hkept := (List.mem_filter.mp he).2
        rw [Bool.and_eq_true, decide_eq_true_eq] at hkept
        exact hkept.2
      · exact ih (j + 1) p hcols

/-- A column enters a row as often as it has entries there that are not zero. -/
theorem columnsIn_columnPositions {nrows : Nat} (hr : r < nrows) (j : Nat) (col : Column α) :
    columnsIn r (columnPositions nrows j col) = List.replicate (hits r col) j := by
  have hconst : columnsIn r (columnPositions nrows j col)
      = List.replicate
          (((col.filter fun e => !Entry.isZero e.2 && e.1 < nrows).filter fun e => e.1 == r).length) j := by
    rw [columnsIn, columnPositions, List.filter_map, List.map_map]
    exact List.map_const' ..
  rw [hconst, List.filter_filter, ← List.countP_eq_length_filter, hits]
  congr 1
  refine List.countP_congr fun e _ => ?_
  simp only [Bool.and_eq_true, beq_iff_eq, decide_eq_true_eq]
  constructor
  · exact fun h => ⟨h.1, h.2.1⟩
  · exact fun h => ⟨h.1, h.2, by rw [h.1]; exact hr⟩

theorem getElem?_indexColumn (j r : Nat) (col : Column α) :
    ∀ rows : Array (List Nat), (indexColumn j col rows)[r]?
      = rows[r]?.map (List.replicate (hits r col) j ++ ·) := by
  induction col with
  | nil =>
      intro rows
      simp [indexColumn, hits]
  | cons e col ih =>
      intro rows
      obtain ⟨s, x⟩ := e
      rw [indexColumn_cons, ih, hits, hits, List.countP_cons]
      cases hx : Entry.isZero x with
      | true => simp
      | false =>
          by_cases hs : s = r
          · subst hs
            simp [Array.getElem?_modify, Function.comp_def, List.replicate_succ']
          · simp [Array.getElem?_modify, hs]

theorem getElem?_indexColumns {nrows : Nat} (hr : r < nrows) (cols : List (Column α)) :
    ∀ j, (indexColumns nrows j cols)[r]? = some (columnsIn r (positionsFrom nrows j cols)) := by
  induction cols with
  | nil =>
      intro j
      simp [indexColumns, hr, positionsFrom, columnsIn]
  | cons col cols ih =>
      intro j
      rw [indexColumns, getElem?_indexColumn, ih, positionsFrom, columnsIn_append,
        columnsIn_columnPositions hr]
      rfl

theorem size_indexColumn (j : Nat) (col : Column α) :
    ∀ rows : Array (List Nat), (indexColumn j col rows).size = rows.size := by
  induction col with
  | nil => exact fun _ => rfl
  | cons e col ih =>
      intro rows
      obtain ⟨s, x⟩ := e
      rw [indexColumn_cons, ih]
      cases Entry.isZero x with
      | true => rfl
      | false => exact Array.size_modify

theorem size_indexColumns (nrows : Nat) (cols : List (Column α)) :
    ∀ j, (indexColumns nrows j cols).size = nrows := by
  induction cols with
  | nil =>
      intro j
      simp [indexColumns]
  | cons col cols ih =>
      intro j
      rw [indexColumns, size_indexColumn, ih]

/-- **Columns can always be indexed by counting**, and the rows found are those of their index. -/
theorem ofPositions_positionsFrom (nrows : Nat) (columns : List (Column α)) :
    ∃ index, ofPositions nrows (positionsFrom nrows 0 columns) = .ok index ∧
      index.Complete nrows ∧ index.rows nrows = rowIndex nrows columns.toArray := by
  obtain ⟨index, hindex, hcomplete, hrow⟩ :=
    ofPositions_ok (row_lt_of_mem_positionsFrom nrows columns 0)
  refine ⟨index, hindex, hcomplete, ?_⟩
  have hsize : (index.rows nrows).size = nrows := by simp [rows]
  refine Array.ext_getElem? fun r => ?_
  by_cases hr : r < nrows
  · rw [rowIndex, getElem?_indexColumns hr, ← hrow r hr]
    simp [rows, hr]
  · rw [Array.getElem?_eq_none (by rw [hsize]; omega),
      Array.getElem?_eq_none (by rw [rowIndex, size_indexColumns]; omega)]

theorem rows_eq_rowIndex {nrows : Nat} {columns : List (Column α)} {index : PackedRows}
    (h : ofPositions nrows (positionsFrom nrows 0 columns) = .ok index) :
    index.rows nrows = rowIndex nrows columns.toArray := by
  obtain ⟨index', hindex, -, hrows⟩ := ofPositions_positionsFrom nrows columns
  obtain rfl : index' = index := Except.ok.inj (hindex.symm.trans h)
  exact hrows

end Columns

end PackedRows

end EliminationOrder

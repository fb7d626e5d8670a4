/-
The Laplacians of paths and grids, entry by entry.

A column of a Laplacian holds one value in its own row and another in the rows of its
neighbors; `stencil_ok` says what matrix such columns make, whatever the neighbors are, as
long as they are rows, different from each other and from the column.  On a grid the point
`(x, y)` has number `y + my * x`, and everything rests on this being one to one: the points
come in the order of their numbers (`gridPoints_eq`), and a step along one axis never ends
on another line of the grid (`mem_gridNeighbors`).

A grid that is one point wide is a path, and then the Laplacians have the pattern of the
matrix of that path's edges.
-/
import EliminationOrder.Proofs.Gallery.EdgeLists
import Mathlib.Algebra.BigOperators.Ring.Finset
import Mathlib.Algebra.Group.Action.Defs
import Mathlib.Tactic.Ring

namespace EliminationOrder.Gallery

variable {α : Type} [Entry α] {m mx my i j x y : Nat} {diagonal off : α}

/-! ### Columns of two values -/

/-- A column with one value in its own row and another in those of its neighbors. -/
def stencilColumn (diagonal off : α) (i : Nat) (neighbors : List Nat) : Column α :=
  (i, diagonal) :: neighbors.map (·, off)

theorem laplacianColumn_ok {n : Int} (hdiagonal : Entry.ofInt? n = some diagonal)
    (hoff : Entry.ofInt? (-1) = some off) (i : Nat) (neighbors : List Nat) :
    laplacianColumn n i neighbors = .ok (stencilColumn diagonal off i neighbors) := by
  have hconstant : (constant n : Outcome α) = .ok diagonal := by rw [constant, hdiagonal]
  have hminus : (constant (-1) : Outcome α) = .ok off := by rw [constant, hoff]
  have hneighbors : ∀ f : Nat × Int → Outcome (Nat × α), (∀ r, f (r, -1) = .ok (r, off)) →
      (neighbors.map fun r => (r, (-1 : Int))).mapM f = .ok (neighbors.map (·, off)) := by
    intro f hf
    rw [List.mapM_map]
    simp only [Function.comp_def, hf]
    exact List.mapM_pure
  rw [laplacianColumn, List.mapM_cons, hneighbors _ fun r => by simp only [hminus, Outcome.ok_bind, Outcome.pure_eq_ok]]
  simp only [hconstant, Outcome.ok_bind]
  rfl

omit [Entry α] in
theorem lookup_stencilColumn (r : Nat) (neighbors : List Nat) :
    List.lookup r (stencilColumn diagonal off i neighbors)
      = if r = i then some diagonal else if r ∈ neighbors then some off else none := by
  by_cases hri : r = i
  · rw [if_pos hri, hri, stencilColumn, List.lookup_cons_self]
  · rw [if_neg hri, stencilColumn, Column.lookup_cons_ne hri]
    induction neighbors with
    | nil => rfl
    | cons s neighbors ih =>
        rw [List.map_cons]
        by_cases hrs : r = s
        · rw [hrs, List.lookup_cons_self, if_pos List.mem_cons_self]
        · rw [Column.lookup_cons_ne hrs, ih]
          simp [hrs]

omit [Entry α] in
theorem distinct_stencilColumn {neighbors : List Nat} (hi : i ∉ neighbors)
    (hnodup : neighbors.Nodup) : (stencilColumn diagonal off i neighbors).Distinct := by
  have hrows : (stencilColumn diagonal off i neighbors).map Prod.fst = i :: neighbors := by
    simp [stencilColumn, Function.comp_def]
  rw [Column.Distinct, hrows]
  exact List.nodup_cons.mpr ⟨hi, hnodup⟩

/-- The neighbors of each of `n` points are other points, none of them listed twice. -/
structure Neighboring (n : Nat) (neighbors : Nat → List Nat) : Prop where
  lt : ∀ c < n, ∀ r ∈ neighbors c, r < n
  notMem : ∀ c < n, c ∉ neighbors c
  nodup : ∀ c < n, (neighbors c).Nodup

/-- **Columns of neighbors make a matrix** that has the one value on the diagonal, the other at
neighbors and zero elsewhere. -/
theorem stencil_ok {n : Nat} {neighbors : Nat → List Nat} (h : Neighboring n neighbors)
    (diagonal off : α) :
    ∃ a, SparseMatrix.ofColumns n
        ((List.range n).map fun c => stencilColumn diagonal off c (neighbors c)) = .ok a ∧
      a.nrows = n ∧ a.ncols = n ∧
      (∀ r, ∀ c < n, a.get r c
        = .ok (if r = c then diagonal else if r ∈ neighbors c then off else 0)) ∧
      a.storedCount = n + ∑ c ∈ Finset.range n, (neighbors c).length := by
  set columns := (List.range n).map fun c => stencilColumn diagonal off c (neighbors c)
    with hcolumns
  have hrange : ∀ col ∈ columns, col.InRange n := by
    intro col hcol e he
    obtain ⟨c, hc, rfl⟩ := List.mem_map.mp hcol
    have hc : c < n := List.mem_range.mp hc
    rcases List.mem_cons.mp he with rfl | he
    · exact hc
    · obtain ⟨r, hr, rfl⟩ := List.mem_map.mp he
      exact h.lt c hc r hr
  have hdistinct : ∀ col ∈ columns, col.Distinct := by
    intro col hcol
    obtain ⟨c, hc, rfl⟩ := List.mem_map.mp hcol
    have hc : c < n := List.mem_range.mp hc
    exact distinct_stencilColumn (h.notMem c hc) (h.nodup c hc)
  obtain ⟨a, hok, hnrows, -⟩ := SparseMatrix.ofColumns_ok hrange hdistinct
  refine ⟨a, hok, hnrows, ?_, ?_, ?_⟩
  · rw [SparseMatrix.ncols_of_ofColumns hok, hcolumns, List.length_map, List.length_range]
  · intro r c hc
    have hcol : columns[c]? = some (stencilColumn diagonal off c (neighbors c)) := by
      simp [hcolumns, hc]
    rw [SparseMatrix.get_of_ofColumns hok hcol, lookup_stencilColumn]
    by_cases hrc : r = c
    · simp [hrc]
    · by_cases hr : r ∈ neighbors c <;> simp [hrc, hr]
  · have hlength : columns.map List.length
        = (List.range n).map fun c => 1 + (neighbors c).length := by
      rw [hcolumns, List.map_map]
      refine List.map_congr_left fun c _ => ?_
      simp [stencilColumn, Nat.add_comm]
    have hsum : ((List.range n).map fun c => 1 + (neighbors c).length).sum
        = ∑ c ∈ Finset.range n, (1 + (neighbors c).length) := rfl
    rw [SparseMatrix.storedCount_of_ofColumns hok, List.length_flatten, hlength, hsum,
      Finset.sum_add_distrib, Finset.sum_const, Finset.card_range, smul_eq_mul, Nat.mul_one]

/-! ### Paths -/

theorem mem_pathNeighbors {k : Nat} (hi : i < m) :
    k ∈ pathNeighbors m i ↔ k < m ∧ (k + 1 = i ∨ i + 1 = k) := by
  unfold pathNeighbors
  by_cases hfirst : 0 < i <;> by_cases hlast : i + 1 < m <;> simp [hfirst, hlast] <;> omega

theorem nodup_pathNeighbors (m i : Nat) : (pathNeighbors m i).Nodup := by
  unfold pathNeighbors
  by_cases hfirst : 0 < i <;> by_cases hlast : i + 1 < m <;> simp [hfirst, hlast]

theorem length_pathNeighbors (m i : Nat) :
    (pathNeighbors m i).length = (if 0 < i then 1 else 0) + if i + 1 < m then 1 else 0 := by
  unfold pathNeighbors
  by_cases hfirst : 0 < i <;> by_cases hlast : i + 1 < m <;> simp [hfirst, hlast]

/-- Both points of each of the path's steps are neighbors of one another. -/
theorem sum_length_pathNeighbors (m : Nat) :
    ∑ i ∈ Finset.range m, (pathNeighbors m i).length = 2 * (m - 1) := by
  have hfirst : ∀ n, ∑ i ∈ Finset.range n, (if 0 < i then 1 else 0) = n - 1 := by
    intro n
    induction n with
    | zero => rfl
    | succ n ih =>
        rw [Finset.sum_range_succ, ih]
        split <;> omega
  have hlast : ∀ n ≤ m, ∑ i ∈ Finset.range n, (if i + 1 < m then 1 else 0) = min n (m - 1) := by
    intro n
    induction n with
    | zero => simp
    | succ n ih =>
        intro hn
        rw [Finset.sum_range_succ, ih (by omega)]
        split <;> omega
  simp only [length_pathNeighbors, Finset.sum_add_distrib, hfirst, hlast m (Nat.le_refl m)]
  omega

theorem neighboring_path (m : Nat) : Neighboring m (pathNeighbors m) where
  lt c hc r hr := ((mem_pathNeighbors hc).mp hr).1
  notMem c hc hmem := by
    have := (mem_pathNeighbors hc).mp hmem
    omega
  nodup c _ := nodup_pathNeighbors m c

theorem pathLaplacian_ok {two minus : α} (htwo : Entry.ofInt? 2 = some two)
    (hminus : Entry.ofInt? (-1) = some minus) (m : Nat) :
    ∃ a, pathLaplacian m = .ok a ∧ a.nrows = m ∧ a.ncols = m ∧
      ∀ r, ∀ c < m, a.get r c
        = .ok (if r = c then two else if r ∈ pathNeighbors m c then minus else 0) := by
  obtain ⟨a, hok, hnrows, hncols, hget, -⟩ := stencil_ok (neighboring_path m) two minus
  refine ⟨a, ?_, hnrows, hncols, hget⟩
  have hcolumns : (List.range m).mapM (fun i => laplacianColumn 2 i (pathNeighbors m i))
      = .ok ((List.range m).map fun i => stencilColumn two minus i (pathNeighbors m i)) := by
    simp only [laplacianColumn_ok htwo hminus]
    exact List.mapM_pure
  rw [pathLaplacian, hcolumns, Outcome.ok_bind, hok]

/-! ### Grids -/

theorem gridPoint_div (hy : y < my) : gridPoint my x y / my = x := by
  rw [gridPoint, Nat.add_mul_div_left _ _ (by omega), Nat.div_eq_of_lt hy, Nat.zero_add]

theorem gridPoint_mod (hy : y < my) : gridPoint my x y % my = y := by
  rw [gridPoint, Nat.add_mul_mod_self_left, Nat.mod_eq_of_lt hy]

/-- **Points of a grid have different numbers.** -/
theorem gridPoint_inj {x' y' : Nat} (hy : y < my) (hy' : y' < my) :
    gridPoint my x y = gridPoint my x' y' ↔ x = x' ∧ y = y' := by
  constructor
  · intro h
    have hdiv := congrArg (· / my) h
    have hmod := congrArg (· % my) h
    simp only [gridPoint_div hy, gridPoint_div hy', gridPoint_mod hy, gridPoint_mod hy'] at hdiv hmod
    exact ⟨hdiv, hmod⟩
  · rintro ⟨rfl, rfl⟩
    rfl

theorem gridPoint_lt (hx : x < mx) (hy : y < my) : gridPoint my x y < mx * my := by
  have hline : my * (x + 1) ≤ my * mx := Nat.mul_le_mul_left my hx
  rw [Nat.mul_add, Nat.mul_one] at hline
  rw [gridPoint, Nat.mul_comm mx]
  omega

theorem exists_gridPoint {c : Nat} (hc : c < mx * my) :
    ∃ x y, x < mx ∧ y < my ∧ c = gridPoint my x y := by
  have hmy : 0 < my := Nat.pos_of_mul_pos_left (Nat.zero_lt_of_lt hc)
  exact ⟨c / my, c % my, (Nat.div_lt_iff_lt_mul hmy).mpr hc, Nat.mod_lt c hmy,
    (Nat.mod_add_div c my).symm⟩

/-- **The points come in the order of their numbers.** -/
theorem gridPoints_eq (mx my : Nat) :
    gridPoints mx my = (List.range (mx * my)).map fun c => (c / my, c % my) := by
  induction mx with
  | zero => simp [gridPoints]
  | succ mx ih =>
      have hline : (List.range my).map (fun y => (mx, y))
          = (List.range my).map (fun y => ((mx * my + y) / my, (mx * my + y) % my)) := by
        refine List.map_congr_left fun y hy => ?_
        have hy : y < my := List.mem_range.mp hy
        have hnumber : mx * my + y = gridPoint my mx y := by
          rw [gridPoint, Nat.mul_comm mx, Nat.add_comm]
        rw [hnumber, gridPoint_div hy, gridPoint_mod hy]
      have hsucc : gridPoints (mx + 1) my
          = gridPoints mx my ++ (List.range my).map fun y => (mx, y) := by
        simp [gridPoints, List.range_succ]
      rw [hsucc, ih, hline, Nat.succ_mul, List.range_add, List.map_append, List.map_map]
      rfl

/-- Two points of a grid are one step apart, along either axis. -/
def OneStep (x y x' y' : Nat) : Prop :=
  ((x : Int) - x').natAbs + ((y : Int) - y').natAbs = 1

instance (x y x' y' : Nat) : Decidable (OneStep x y x' y') :=
  inferInstanceAs (Decidable (_ = _))

/-- **The neighbors of a point are one step away**, so no step leads to another line. -/
theorem mem_gridNeighbors {x' y' : Nat} (hx : x < mx) (hy : y < my) (hx' : x' < mx)
    (hy' : y' < my) : gridPoint my x' y' ∈ gridNeighbors mx my x y ↔ OneStep x' y' x y := by
  unfold gridNeighbors OneStep
  rw [List.mem_append, List.mem_map, List.mem_map]
  constructor
  · rintro (⟨k, hk, heq⟩ | ⟨k, hk, heq⟩)
    · obtain ⟨rfl, rfl⟩ := (gridPoint_inj hy hy').mp heq
      have := (mem_pathNeighbors hx).mp hk
      omega
    · have hkm := ((mem_pathNeighbors hy).mp hk).1
      obtain ⟨rfl, rfl⟩ := (gridPoint_inj hkm hy').mp heq
      have := (mem_pathNeighbors hy).mp hk
      omega
  · intro hstep
    by_cases hline : y' = y
    · subst hline
      exact Or.inl ⟨x', (mem_pathNeighbors hx).mpr (by omega), rfl⟩
    · have hrow : x' = x := by omega
      subst hrow
      exact Or.inr ⟨y', (mem_pathNeighbors hy).mpr (by omega), rfl⟩

theorem exists_of_mem_gridNeighbors {r : Nat} (hx : x < mx) (hy : y < my)
    (hr : r ∈ gridNeighbors mx my x y) :
    ∃ x' y', x' < mx ∧ y' < my ∧ r = gridPoint my x' y' := by
  rcases List.mem_append.mp hr with hr | hr
  · obtain ⟨k, hk, rfl⟩ := List.mem_map.mp hr
    exact ⟨k, y, ((mem_pathNeighbors hx).mp hk).1, hy, rfl⟩
  · obtain ⟨k, hk, rfl⟩ := List.mem_map.mp hr
    exact ⟨x, k, hx, ((mem_pathNeighbors hy).mp hk).1, rfl⟩

theorem nodup_gridNeighbors (hy : y < my) : (gridNeighbors mx my x y).Nodup := by
  unfold gridNeighbors
  rw [List.nodup_append]
  refine ⟨?_, ?_, ?_⟩
  · refine (nodup_pathNeighbors mx x).map fun k l heq => ?_
    exact ((gridPoint_inj hy hy).mp heq).1
  · refine (nodup_pathNeighbors my y).map_on fun k hk l hl heq => ?_
    exact ((gridPoint_inj ((mem_pathNeighbors hy).mp hk).1 ((mem_pathNeighbors hy).mp hl).1).mp heq).2
  · rintro r hr s hs rfl
    obtain ⟨k, hk, rfl⟩ := List.mem_map.mp hr
    obtain ⟨l, hl, heq⟩ := List.mem_map.mp hs
    -- A step along one axis would have to be none along the other.
    have hl := (mem_pathNeighbors hy).mp hl
    have := (gridPoint_inj hl.1 hy).mp heq
    omega

/-- The neighbors of the grid point with the given number. -/
def gridNeighborsOf (mx my c : Nat) : List Nat :=
  gridNeighbors mx my (c / my) (c % my)

theorem gridNeighborsOf_gridPoint (hy : y < my) :
    gridNeighborsOf mx my (gridPoint my x y) = gridNeighbors mx my x y := by
  rw [gridNeighborsOf, gridPoint_div hy, gridPoint_mod hy]

theorem neighboring_grid (mx my : Nat) : Neighboring (mx * my) (gridNeighborsOf mx my) where
  lt c hc r hr := by
    obtain ⟨x, y, hx, hy, rfl⟩ := exists_gridPoint hc
    rw [gridNeighborsOf_gridPoint hy] at hr
    obtain ⟨x', y', hx', hy', rfl⟩ := exists_of_mem_gridNeighbors hx hy hr
    exact gridPoint_lt hx' hy'
  notMem c hc hmem := by
    obtain ⟨x, y, hx, hy, rfl⟩ := exists_gridPoint hc
    rw [gridNeighborsOf_gridPoint hy, mem_gridNeighbors hx hy hx hy, OneStep] at hmem
    omega
  nodup c hc := by
    obtain ⟨x, y, hx, hy, rfl⟩ := exists_gridPoint hc
    rw [gridNeighborsOf_gridPoint hy]
    exact nodup_gridNeighbors hy

/-- A sum over the points of a grid, line by line. -/
theorem sum_gridPoints (f : Nat × Nat → Nat) (mx my : Nat) :
    ((gridPoints mx my).map f).sum
      = ∑ x ∈ Finset.range mx, ∑ y ∈ Finset.range my, f (x, y) := by
  induction mx with
  | zero => rfl
  | succ mx ih =>
      have hsucc : gridPoints (mx + 1) my
          = gridPoints mx my ++ (List.range my).map fun y => (mx, y) := by
        simp [gridPoints, List.range_succ]
      rw [hsucc, List.map_append, List.sum_append, ih, Finset.sum_range_succ, List.map_map]
      rfl

theorem sum_length_gridNeighbors (mx my : Nat) :
    ∑ c ∈ Finset.range (mx * my), (gridNeighborsOf mx my c).length
      = 2 * (mx - 1) * my + 2 * (my - 1) * mx := by
  have hpoints : ((gridPoints mx my).map fun p => (gridNeighbors mx my p.1 p.2).length).sum
      = ∑ c ∈ Finset.range (mx * my), (gridNeighborsOf mx my c).length := by
    rw [gridPoints_eq, List.map_map]
    rfl
  have hlength : ∀ x y, (gridNeighbors mx my x y).length
      = (pathNeighbors mx x).length + (pathNeighbors my y).length := by
    intro x y
    rw [gridNeighbors, List.length_append, List.length_map, List.length_map]
  rw [← hpoints, sum_gridPoints]
  simp only [hlength, Finset.sum_add_distrib, Finset.sum_const, Finset.card_range, smul_eq_mul,
    sum_length_pathNeighbors, ← Finset.mul_sum]
  ring

theorem gridLaplacian_ok {four minus : α} (hfour : Entry.ofInt? 4 = some four)
    (hminus : Entry.ofInt? (-1) = some minus) (mx my : Nat) :
    ∃ a, gridLaplacian mx my = .ok a ∧ a.nrows = mx * my ∧ a.ncols = mx * my ∧
      (∀ r, ∀ c < mx * my, a.get r c
        = .ok (if r = c then four else if r ∈ gridNeighborsOf mx my c then minus else 0)) ∧
      a.storedCount = mx * my + (2 * (mx - 1) * my + 2 * (my - 1) * mx) := by
  obtain ⟨a, hok, hnrows, hncols, hget, hcount⟩ := stencil_ok (neighboring_grid mx my) four minus
  refine ⟨a, ?_, hnrows, hncols, hget, by rw [hcount, sum_length_gridNeighbors]⟩
  have hcolumns : (gridPoints mx my).mapM (fun p =>
        laplacianColumn 4 (gridPoint my p.1 p.2) (gridNeighbors mx my p.1 p.2))
      = .ok ((List.range (mx * my)).map fun c =>
          stencilColumn four minus c (gridNeighborsOf mx my c)) := by
    have hnumber : ∀ c, gridPoint my (c / my) (c % my) = c := fun c => Nat.mod_add_div c my
    simp only [laplacianColumn_ok hfour hminus, gridPoints_eq, List.mapM_map, Function.comp_def,
      hnumber]
    exact List.mapM_pure
  show (gridPoints mx my).mapM (fun p =>
    laplacianColumn 4 (gridPoint my p.1 p.2) (gridNeighbors mx my p.1 p.2)) >>= _ = _
  rw [hcolumns, Outcome.ok_bind, hok]

/-! ### Patterns of paths -/

/-- The positions on the diagonal and next to it. -/
def OnPath (m i j : Nat) : Prop :=
  i < m ∧ j < m ∧ (i = j ∨ i + 1 = j ∨ j + 1 = i)

/-- An entry type has an integer. -/
def Represents (α : Type) [Entry α] (n : Int) : Prop :=
  ∃ x : α, Entry.ofInt? n = some x

/-- An entry type has an integer, and does not take it for zero. -/
def RepresentsNonzero (α : Type) [Entry α] (n : Int) : Prop :=
  ∃ x : α, Entry.ofInt? n = some x ∧ Entry.isZero x = false

/-- A call answers with a matrix that is not zero at exactly the given positions. -/
def HasPattern (answer : Outcome (SparseMatrix α)) (positions : Nat → Nat → Prop) : Prop :=
  ∃ a, answer = .ok a ∧ ∀ i j, (StoredMatrix.sparse a).Nonzero i j ↔ positions i j

theorem hasPattern_of_entries {n : Nat} {answer : Outcome (SparseMatrix α)} {a : SparseMatrix α}
    {positions : Nat → Nat → Prop} (hok : answer = .ok a) (hnrows : a.nrows = n)
    (hncols : a.ncols = n) (hrange : ∀ i j, positions i j → i < n ∧ j < n)
    (hentries : ∀ i < n, ∀ j < n, ∃ x, a.get i j = .ok x ∧ (Entry.isZero x = false ↔ positions i j)) :
    HasPattern answer positions := by
  refine ⟨a, hok, fun i j => ?_⟩
  have hiff : ∀ hi : i < a.nrows, ∀ hj : j < a.ncols,
      (StoredMatrix.sparse a).Nonzero i j ↔ positions i j := by
    intro hi hj
    obtain ⟨x, hget, hx⟩ := hentries i (hnrows ▸ hi) j (hncols ▸ hj)
    exact (StoredMatrix.nonzero_iff (a := .sparse a) hi hj hget).trans hx
  constructor
  · exact fun h => (hiff h.1 h.2.1).mp h
  · intro h
    obtain ⟨hi, hj⟩ := hrange i j h
    exact (hiff (hnrows ▸ hi) (hncols ▸ hj)).mpr h

/-- Columns with values other than zero have the pattern of a path if their neighbors are those on one. -/
theorem stencil_hasPattern {neighbors : Nat → List Nat} {answer : Outcome (SparseMatrix α)}
    {a : SparseMatrix α} (hok : answer = .ok a) (hnrows : a.nrows = m) (hncols : a.ncols = m)
    (hget : ∀ r, ∀ c < m, a.get r c
      = .ok (if r = c then diagonal else if r ∈ neighbors c then off else 0))
    (hdiagonal : Entry.isZero diagonal = false) (hoff : Entry.isZero off = false)
    (hneighbors : ∀ i < m, ∀ j < m, i ∈ neighbors j ↔ i + 1 = j ∨ j + 1 = i) :
    HasPattern answer (OnPath m) := by
  have hnone : Entry.isZero (0 : α) = true := Entry.zero_beq_zero
  refine hasPattern_of_entries hok hnrows hncols (fun i j h => ⟨h.1, h.2.1⟩)
    fun i hi j hj => ⟨_, hget i j hj, ?_⟩
  rw [OnPath, ← hneighbors i hi j hj]
  by_cases hij : i = j
  · simp [hij, hdiagonal, hj]
  · by_cases hmem : i ∈ neighbors j <;> simp [hij, hmem, hoff, hnone, hi, hj]

theorem mem_gridNeighborsOf_line (hi : i < m) (hj : j < m) :
    i ∈ gridNeighborsOf 1 m j ↔ i + 1 = j ∨ j + 1 = i := by
  have hpoint : ∀ k, gridPoint m 0 k = k := fun k => by simp [gridPoint]
  have hiff : gridPoint m 0 i ∈ gridNeighbors 1 m 0 j ↔ OneStep 0 i 0 j :=
    mem_gridNeighbors Nat.one_pos hj Nat.one_pos hi
  rw [← gridNeighborsOf_gridPoint hj, hpoint, hpoint] at hiff
  rw [hiff, OneStep]
  omega

theorem mem_gridNeighborsOf_row (hi : i < m) (hj : j < m) :
    i ∈ gridNeighborsOf m 1 j ↔ i + 1 = j ∨ j + 1 = i := by
  have hpoint : ∀ k, gridPoint 1 k 0 = k := fun k => by simp [gridPoint]
  have hiff : gridPoint 1 i 0 ∈ gridNeighbors m 1 j 0 ↔ OneStep i 0 j 0 :=
    mem_gridNeighbors hj Nat.one_pos hi Nat.one_pos
  rw [← gridNeighborsOf_gridPoint Nat.one_pos, hpoint, hpoint] at hiff
  rw [hiff, OneStep]
  omega

theorem timesListed_path (hi : i < m) (hj : j < m) :
    timesListed ((List.range (m - 1)).map fun k => (k, k + 1)) i j
      = if i + 1 = j ∨ j + 1 = i then 1 else 0 := by
  have hcount : ∀ k, (List.range (m - 1)).countP (fun l => decide (l = k))
      = if k < m - 1 then 1 else 0 := by
    intro k
    by_cases hk : k < m - 1
    · rw [if_pos hk]
      exact List.count_eq_one_of_mem List.nodup_range (List.mem_range.mpr hk)
    · rw [if_neg hk]
      exact List.count_eq_zero.mpr (by simpa using Nat.le_of_not_lt hk)
  have hstep : ∀ k : Nat, ((k, k + 1) = (i, j) ∨ (k, k + 1) = (j, i)) ↔
      (i + 1 = j ∨ j + 1 = i) ∧ k = min i j := by
    intro k
    simp only [Prod.mk.injEq]
    omega
  rw [timesListed, List.countP_map]
  simp only [Function.comp_def, hstep]
  by_cases hadjacent : i + 1 = j ∨ j + 1 = i
  · simp only [hadjacent, true_and, hcount, if_true]
    rw [if_pos (by omega)]
  · simp [hadjacent]

theorem path_hasPattern (hone : Entry.isZero ((0 : α) + 1) = false) (m : Nat) :
    HasPattern (α := α) (path m) (OnPath m) := by
  have hrange : ∀ e ∈ (List.range (m - 1)).map fun k => (k, k + 1),
      e.1 ≠ e.2 → e.1 < m ∧ e.2 < m := by
    intro e he _
    obtain ⟨k, hk, rfl⟩ := List.mem_map.mp he
    have := List.mem_range.mp hk
    dsimp only
    omega
  obtain ⟨a, hok, hcounts⟩ := ofEdges_ok (α := α) hrange
  have hones : Entry.isZero (ones 1 : α) = false := hone
  have hnone : Entry.isZero (ones 0 : α) = true := Entry.zero_beq_zero
  refine hasPattern_of_entries hok hcounts.nrows hcounts.ncols (fun i j h => ⟨h.1, h.2.1⟩)
    fun i hi j hj => ?_
  unfold OnPath
  by_cases hij : i = j
  · subst hij
    exact ⟨_, hcounts.diagonal i hi, by simp [hones, hi]⟩
  · refine ⟨_, hcounts.entry i j hj hij, ?_⟩
    rw [timesListed_path hi hj]
    by_cases hadjacent : i + 1 = j ∨ j + 1 = i <;> simp [hij, hadjacent, hones, hnone, hi, hj]

theorem pathLaplacian_hasPattern (hminus : RepresentsNonzero α (-1)) (htwo : RepresentsNonzero α 2)
    (m : Nat) : HasPattern (α := α) (pathLaplacian m) (OnPath m) := by
  obtain ⟨minus, hminus, hoff⟩ := hminus
  obtain ⟨two, htwo, hdiagonal⟩ := htwo
  obtain ⟨a, hok, hnrows, hncols, hget⟩ := pathLaplacian_ok htwo hminus m
  refine stencil_hasPattern hok hnrows hncols hget hdiagonal hoff fun i hi j hj => ?_
  simp [mem_pathNeighbors hj, hi]

/-- A grid whose neighbors are those of a path has the path's pattern. -/
theorem gridLaplacian_hasPattern (hminus : RepresentsNonzero α (-1)) (hfour : RepresentsNonzero α 4)
    (hsize : mx * my = m) (hneighbors : ∀ i < m, ∀ j < m,
      i ∈ gridNeighborsOf mx my j ↔ i + 1 = j ∨ j + 1 = i) :
    HasPattern (α := α) (gridLaplacian mx my) (OnPath m) := by
  obtain ⟨minus, hminus, hoff⟩ := hminus
  obtain ⟨four, hfour, hdiagonal⟩ := hfour
  obtain ⟨a, hok, hnrows, hncols, hget, -⟩ := gridLaplacian_ok hfour hminus mx my
  rw [hsize] at hnrows hncols hget
  exact stencil_hasPattern hok hnrows hncols hget hdiagonal hoff hneighbors

/-! ### All together -/

/-- **The Laplacian of a grid** has four on the diagonal, minus one where two points are one step
apart, and zero elsewhere, and stores no more than that.  The Laplacian of a path, the matrix of its
edges, and the Laplacians of grids that are one point wide all have the pattern of the path, each
where the entry type has the numbers it is made of and takes none of them for zero. -/
theorem gridLaplacian_entries :
    (Represents α (-1) → Represents α 4 → ∀ mx my, ∃ a : SparseMatrix α,
      gridLaplacian mx my = .ok a ∧ a.nrows = mx * my ∧ a.ncols = mx * my ∧
      (∀ ix < mx, ∀ iy < my, ∀ jx < mx, ∀ jy < my, a.get (iy + my * ix) (jy + my * jx) =
        if ix = jx ∧ iy = jy then constant 4
        else if ((ix : Int) - jx).natAbs + ((iy : Int) - jy).natAbs = 1 then constant (-1)
        else .ok 0) ∧
      (1 ≤ mx → 1 ≤ my → a.storedCount + 2 * mx + 2 * my = 5 * mx * my)) ∧
    ∀ m,
      (RepresentsNonzero α (-1) → RepresentsNonzero α 2 →
        HasPattern (α := α) (pathLaplacian m) (OnPath m)) ∧
      (Entry.isZero ((0 : α) + 1) = false → HasPattern (α := α) (path m) (OnPath m)) ∧
      (RepresentsNonzero α (-1) → RepresentsNonzero α 4 →
        HasPattern (α := α) (gridLaplacian 1 m) (OnPath m) ∧
        HasPattern (α := α) (gridLaplacian m 1) (OnPath m)) := by
  refine ⟨fun ⟨minus, hminus⟩ ⟨four, hfour⟩ mx my => ?_, fun m => ⟨?_, ?_, ?_⟩⟩
  · obtain ⟨a, hok, hnrows, hncols, hget, hcount⟩ := gridLaplacian_ok hfour hminus mx my
    have hconstant : (constant 4 : Outcome α) = .ok four := by rw [constant, hfour]
    have hconstant' : (constant (-1) : Outcome α) = .ok minus := by rw [constant, hminus]
    refine ⟨a, hok, hnrows, hncols, ?_, ?_⟩
    · intro ix hix iy hiy jx hjx jy hjy
      have hentry := hget (gridPoint my ix iy) (gridPoint my jx jy) (gridPoint_lt hjx hjy)
      simp only [gridNeighborsOf_gridPoint hjy, gridPoint_inj hiy hjy,
        mem_gridNeighbors hjx hjy hix hiy, OneStep] at hentry
      rw [hconstant, hconstant']
      refine hentry.trans ?_
      split
      · rfl
      · split <;> rfl
    · intro hmx hmy
      obtain ⟨p, rfl⟩ := Nat.exists_eq_add_of_le' hmx
      obtain ⟨q, rfl⟩ := Nat.exists_eq_add_of_le' hmy
      rw [hcount, Nat.add_sub_cancel, Nat.add_sub_cancel]
      ring
  · exact fun hminus htwo => pathLaplacian_hasPattern hminus htwo m
  · exact fun hone => path_hasPattern hone m
  · intro hminus hfour
    constructor
    · exact gridLaplacian_hasPattern hminus hfour (Nat.one_mul m)
        fun i hi j hj => mem_gridNeighborsOf_line hi hj
    · exact gridLaplacian_hasPattern hminus hfour (Nat.mul_one m)
        fun i hi j hj => mem_gridNeighborsOf_row hi hj

/-- A grid of four times three points in floating-point numbers and in words, and a path of five. -/
theorem gridLaplacian_entries_fourByThree :
    (∃ a : SparseMatrix Float, gridLaplacian 4 3 = .ok a ∧ a.storedCount = 46 ∧
      a.get 7 4 = constant (-1) ∧ a.get 7 5 = .ok 0) ∧
    (∃ a : SparseMatrix Int64, gridLaplacian 4 3 = .ok a ∧ a.storedCount = 46 ∧
      a.get 7 7 = .ok 4 ∧ a.get 7 4 = .ok (-1) ∧ a.get 3 2 = .ok 0) ∧
    HasPattern (α := Int64) (pathLaplacian 5) (OnPath 5) ∧
    HasPattern (α := Int64) (path 5) (OnPath 5) ∧
    HasPattern (α := Int64) (gridLaplacian 1 5) (OnPath 5) ∧
    HasPattern (α := Int64) (gridLaplacian 5 1) (OnPath 5) := by
  obtain ⟨a, ha, -, -, hget, hcount⟩ :=
    (gridLaplacian_entries (α := Float)).1 ⟨_, rfl⟩ ⟨_, rfl⟩ 4 3
  obtain ⟨b, hb, -, -, hget', hcount'⟩ :=
    (gridLaplacian_entries (α := Int64)).1 ⟨_, rfl⟩ ⟨_, rfl⟩ 4 3
  obtain ⟨hpathLaplacian, hpath, hgrids⟩ := (gridLaplacian_entries (α := Int64)).2 5
  have hminus : RepresentsNonzero Int64 (-1) := ⟨-1, rfl, by decide⟩
  have htwo : RepresentsNonzero Int64 2 := ⟨2, rfl, by decide⟩
  have hfour : RepresentsNonzero Int64 4 := ⟨4, rfl, by decide⟩
  have hsize := hcount (by decide) (by decide)
  have hsize' := hcount' (by decide) (by decide)
  refine ⟨⟨a, ha, by omega, ?_, ?_⟩, ⟨b, hb, by omega, ?_, ?_, ?_⟩,
    hpathLaplacian hminus htwo, hpath (by decide), hgrids hminus hfour⟩
  · exact hget 2 (by decide) 1 (by decide) 1 (by decide) 1 (by decide)
  · exact hget 2 (by decide) 1 (by decide) 1 (by decide) 2 (by decide)
  · exact hget' 2 (by decide) 1 (by decide) 2 (by decide) 1 (by decide)
  · exact hget' 2 (by decide) 1 (by decide) 1 (by decide) 1 (by decide)
  · exact hget' 1 (by decide) 0 (by decide) 0 (by decide) 2 (by decide)

/-- Integers modulo `n + 1`, of which those from minus one to `top` are converted. -/
structure Residue (n : Nat) (top : Int) where
  val : Fin (n + 1)
deriving DecidableEq

instance (n : Nat) (top : Int) : Entry (Residue n top) where
  zero := ⟨0⟩
  one := ⟨1⟩
  add x y := ⟨x.val + y.val⟩
  beq x y := x.val == y.val
  ofInt? k := if -1 ≤ k ∧ k ≤ top then some ⟨Fin.ofNat (n + 1) (k % (n + 1)).toNat⟩ else none
  zero_beq_zero := beq_self_eq_true _

/-- Having minus one is not enough.  Modulo three no four need be converted, nor a two; modulo four
that four is a zero, so the Laplacian of a point has another pattern than the point; and an unsigned
byte has a path of three points but not its Laplacian. -/
theorem minusOne_insufficient :
    (Represents (Residue 2 1) (-1) ∧
      (gridLaplacian 1 1 : Outcome (SparseMatrix (Residue 2 1)))
        = .error (.fault (.notRepresentable 4)) ∧
      (pathLaplacian 1 : Outcome (SparseMatrix (Residue 2 1)))
        = .error (.fault (.notRepresentable 2))) ∧
    (Represents (Residue 3 4) (-1) ∧ ∃ a b : SparseMatrix (Residue 3 4),
      path 1 = .ok a ∧ gridLaplacian 1 1 = .ok b ∧
      (StoredMatrix.sparse a).Nonzero 0 0 ∧ ¬ (StoredMatrix.sparse b).Nonzero 0 0) ∧
    (HasPattern (α := UInt8) (path 3) (OnPath 3) ∧
      (pathLaplacian 3 : Outcome (SparseMatrix UInt8)) = .error (.fault (.notRepresentable (-1)))) := by
  refine ⟨⟨⟨_, rfl⟩, rfl, rfl⟩, ⟨⟨_, rfl⟩, ?_⟩, path_hasPattern (by decide) 3, rfl⟩
  have hfour : Entry.ofInt? 4 = some (⟨0⟩ : Residue 3 4) := rfl
  have hminus : Entry.ofInt? (-1) = some (⟨3⟩ : Residue 3 4) := rfl
  obtain ⟨a, ha, hpath⟩ := path_hasPattern (α := Residue 3 4) (by decide) 1
  obtain ⟨b, hb, -, -, hget, -⟩ := gridLaplacian_ok hfour hminus 1 1
  refine ⟨a, b, ha, hb, (hpath 0 0).mpr ⟨Nat.one_pos, Nat.one_pos, Or.inl rfl⟩, fun h => ?_⟩
  have hzero := (StoredMatrix.nonzero_iff h.1 h.2.1 (hget 0 0 Nat.one_pos)).mp h
  exact absurd hzero (by decide)

end EliminationOrder.Gallery

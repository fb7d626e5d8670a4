/-
The table of a document is well formed: no name occurs twice, and integers fit into a word.

A table grows by one operation, which changes the value under a name or adds a name that is
new (`Entries.alter`).  That keeps names apart whatever the change is, and it keeps integers
in range as long as the change yields none that is not (`WellFormed.alter`).  Statements
change a table in no other way (`build_wellFormed`), and the only integers they bring in
are those of a scalar (`readValue_inWord`).
-/
import EliminationOrder.Proofs.Toml.Laws
import EliminationOrder.Toml.Document

namespace EliminationOrder.Toml

theorem wellFormed_nil : WellFormed [] :=
  ⟨List.nodup_nil, fun _ he => absurd he List.not_mem_nil⟩

theorem InWord.table (form : TableForm) (es : Entries) : InWord (.table form es) :=
  fun _ h => by cases h

theorem InWord.tables (latest : Entries) (earlier : List Entries) : InWord (.tables latest earlier) :=
  fun _ h => by cases h

/-! ### Changing a table -/

variable {name : String} {v : Value} {es es' : Entries} {change : Option Value → Option Value}

/-- The names of a changed table are its own and at most the one that was asked for. -/
theorem mem_names_of_alter (h : es.alter name change = some es') :
    ∀ n ∈ es'.map Prod.fst, n ∈ es.map Prod.fst ∨ n = name := by
  induction es generalizing es' with
  | nil =>
      obtain ⟨v, -, h⟩ := Option.bind_eq_some_iff.mp h
      cases h
      exact fun n hn => Or.inr (List.mem_singleton.mp hn)
  | cons e es ih =>
      intro n hn
      rw [Entries.alter] at h
      split at h
      · obtain ⟨v, -, h⟩ := Option.bind_eq_some_iff.mp h
        cases h
        exact Or.inl hn
      · obtain ⟨rest, hrest, h⟩ := Option.bind_eq_some_iff.mp h
        cases h
        rcases List.mem_cons.mp hn with hn | hn
        · exact Or.inl (List.mem_cons.mpr (Or.inl hn))
        · exact (ih hrest n hn).imp_left (List.mem_cons_of_mem _)

/-- **A change that yields no integer out of range keeps a table well formed.** -/
theorem WellFormed.alter (hes : WellFormed es) (h : es.alter name change = some es')
    (hchange : ∀ old v, change old = some v → InWord v) : WellFormed es' := by
  induction es generalizing es' with
  | nil =>
      obtain ⟨v, hv, h⟩ := Option.bind_eq_some_iff.mp h
      cases h
      exact ⟨List.nodup_singleton _, fun e he => by
        rw [List.mem_singleton.mp he]
        exact hchange _ _ hv⟩
  | cons e es ih =>
      obtain ⟨hnames, hwords⟩ := hes
      rw [List.map_cons, List.nodup_cons] at hnames
      rw [List.forall_mem_cons] at hwords
      rw [Entries.alter] at h
      split at h
      · obtain ⟨v, hv, h⟩ := Option.bind_eq_some_iff.mp h
        cases h
        exact ⟨List.nodup_cons.mpr hnames, List.forall_mem_cons.mpr ⟨hchange _ _ hv, hwords.2⟩⟩
      · rename_i hne
        obtain ⟨rest, hrest, h⟩ := Option.bind_eq_some_iff.mp h
        cases h
        have hwellFormed := ih ⟨hnames.2, hwords.2⟩ hrest
        refine ⟨List.nodup_cons.mpr ⟨fun hmem => ?_, hwellFormed.names⟩,
          List.forall_mem_cons.mpr ⟨hwords.1, hwellFormed.words⟩⟩
        exact (mem_names_of_alter hrest _ hmem).elim hnames.1 hne

/-! ### Statements -/

theorem WellFormed.addDotted (hes : WellFormed es) (hv : InWord v) {path : List String}
    (h : es.addDotted name v path = some es') : WellFormed es' := by
  cases path with
  | nil =>
      refine hes.alter h fun old w hw => ?_
      cases old with
      | none =>
          cases hw
          exact hv
      | some _ => cases hw
  | cons k path =>
      rw [Entries.addDotted] at h
      refine hes.alter h fun old w hw => ?_
      split at hw
      · obtain ⟨inner, -, hw⟩ := Option.bind_eq_some_iff.mp hw
        cases hw
        exact InWord.table _ _
      · obtain ⟨inner, -, hw⟩ := Option.bind_eq_some_iff.mp hw
        cases hw
        exact InWord.table _ _
      · split at hw
        · cases hw
        · obtain ⟨inner, -, hw⟩ := Option.bind_eq_some_iff.mp hw
          cases hw
          exact InWord.table _ _
      · split at hw
        · cases hw
        · obtain ⟨inner, -, hw⟩ := Option.bind_eq_some_iff.mp hw
          cases hw
          exact InWord.tables _ _
      · cases hw

theorem WellFormed.openTable (hes : WellFormed es) (h : es.openTable name = some es') :
    WellFormed es' := by
  refine hes.alter h fun old w hw => ?_
  split at hw
  · cases hw
    exact InWord.table _ _
  · cases hw
    exact InWord.table _ _
  · cases hw

theorem WellFormed.openElement (hes : WellFormed es) (h : es.openElement name = some es') :
    WellFormed es' := by
  refine hes.alter h fun old w hw => ?_
  split at hw
  · cases hw
    exact InWord.tables _ _
  · cases hw
    exact InWord.tables _ _
  · cases hw

/-- Further down a path only tables change; at its end the given change has to be harmless. -/
theorem WellFormed.alterAt {f : Entries → Option Entries} {path : List String} (hes : WellFormed es)
    (hf : ∀ es', f es = some es' → WellFormed es') (h : es.alterAt f path = some es') :
    WellFormed es' := by
  cases path with
  | nil => exact hf es' h
  | cons k path =>
      rw [Entries.alterAt] at h
      refine hes.alter h fun old w hw => ?_
      split at hw
      · obtain ⟨inner, -, hw⟩ := Option.bind_eq_some_iff.mp hw
        cases hw
        exact InWord.table _ _
      · cases hw
      · obtain ⟨inner, -, hw⟩ := Option.bind_eq_some_iff.mp hw
        cases hw
        exact InWord.table _ _
      · obtain ⟨inner, -, hw⟩ := Option.bind_eq_some_iff.mp hw
        cases hw
        exact InWord.tables _ _
      · cases hw

/-- A statement brings in no integer out of range. -/
def Statement.InWord : Statement → Prop
  | .assign _ v => Toml.InWord v
  | .table _ => True
  | .element _ => True

/-- **Statements fill a well-formed table.** -/
theorem build_wellFormed {statements : List Statement} {here : List String} (hes : WellFormed es)
    (hstatements : ∀ s ∈ statements, s.InWord) (h : build here es statements = some es') :
    WellFormed es' := by
  induction statements generalizing here es with
  | nil =>
      cases h
      exact hes
  | cons s statements ih =>
      rw [List.forall_mem_cons] at hstatements
      cases s with
      | assign key v =>
          obtain ⟨root, hroot, h⟩ := Option.bind_eq_some_iff.mp h
          exact ih (hes.alterAt (fun _ => hes.addDotted hstatements.1) hroot) hstatements.2 h
      | table key =>
          obtain ⟨root, hroot, h⟩ := Option.bind_eq_some_iff.mp h
          exact ih (hes.alterAt (fun _ => hes.openTable) hroot) hstatements.2 h
      | element key =>
          obtain ⟨root, hroot, h⟩ := Option.bind_eq_some_iff.mp h
          exact ih (hes.alterAt (fun _ => hes.openElement) hroot) hstatements.2 h

/-! ### Reading -/

variable {cs rest : List Char} {n : Int} {bound : Nat}

theorem inWord_range {m : Int} (h : inWord m = some n) : -2 ^ 63 ≤ n ∧ n ≤ 2 ^ 63 - 1 := by
  have hmin : Int64.minValue.toInt = -2 ^ 63 := rfl
  have hmax : Int64.maxValue.toInt = 2 ^ 63 - 1 := rfl
  unfold inWord at h
  split at h
  · rename_i hrange
    cases h
    rwa [hmin, hmax] at hrange
  · cases h

theorem readInteger_range (h : readInteger cs = some n) : -2 ^ 63 ≤ n ∧ n ≤ 2 ^ 63 - 1 := by
  unfold readInteger at h
  split at h
  all_goals
    obtain ⟨ds, -, h⟩ := Option.bind_eq_some_iff.mp h
    exact inWord_range h

/-- **The integers of scalars are in range.** -/
theorem scalar?_inWord (h : scalar? cs = some v) : InWord v := by
  intro n hn
  subst hn
  unfold scalar? at h
  split at h
  · cases h
  split at h
  · cases h
  split at h
  · cases h
  split at h
  · cases h
  · obtain ⟨m, hm, h⟩ := Option.map_eq_some_iff.mp h
    cases h
    exact readInteger_range hm

theorem readScalar_inWord (h : readScalar cs = some (v, rest)) : InWord v := by
  simp only [readScalar] at h
  split at h
  · -- A date with a time behind it is no integer.
    rename_i htimed
    split at htimed
    · split at htimed
      · cases htimed
        cases h
        exact fun n hn => by cases hn
      · cases htimed
    · cases htimed
  · obtain ⟨w, hw, h⟩ := Option.map_eq_some_iff.mp h
    cases h
    exact scalar?_inWord hw

/-- **So are the integers that stand as values.** -/
theorem readValue_inWord (h : readValue bound cs = some (v, rest)) : InWord v := by
  cases bound with
  | zero => cases h
  | succ bound =>
      unfold readValue at h
      split at h
      · obtain ⟨items, -, h⟩ := Option.bind_eq_some_iff.mp h
        cases h
        exact fun n hn => by cases hn
      · split at h
        · cases h
          exact InWord.table _ _
        · obtain ⟨entries, -, h⟩ := Option.bind_eq_some_iff.mp h
          cases h
          exact InWord.table _ _
      · obtain ⟨text, -, h⟩ := Option.bind_eq_some_iff.mp h
        cases h
        exact fun n hn => by cases hn
      · obtain ⟨text, -, h⟩ := Option.bind_eq_some_iff.mp h
        cases h
        exact fun n hn => by cases hn
      · exact readScalar_inWord h

theorem readStatement_inWord {s : Statement} (h : readStatement cs = some (s, rest)) : s.InWord := by
  unfold readStatement at h
  split at h
  · obtain ⟨⟨key, cs⟩, -, h⟩ := Option.bind_eq_some_iff.mp h
    dsimp only at h
    split at h
    · cases h
      trivial
    · cases h
  · obtain ⟨⟨key, cs⟩, -, h⟩ := Option.bind_eq_some_iff.mp h
    dsimp only at h
    split at h
    · cases h
      trivial
    · cases h
  · obtain ⟨⟨key, cs⟩, -, h⟩ := Option.bind_eq_some_iff.mp h
    dsimp only at h
    split at h
    · obtain ⟨⟨v, rest⟩, hv, h⟩ := Option.bind_eq_some_iff.mp h
      cases h
      exact readValue_inWord hv
    · cases h

theorem readStatements_inWord {statements : List Statement}
    (h : readStatements bound cs = some statements) : ∀ s ∈ statements, s.InWord := by
  induction bound generalizing cs statements with
  | zero => cases h
  | succ bound ih =>
      unfold readStatements at h
      split at h
      · cases h
        exact fun s hs => absurd hs List.not_mem_nil
      · exact ih h
      · obtain ⟨rest, -, h⟩ := Option.bind_eq_some_iff.mp h
        exact ih h
      · obtain ⟨⟨s, rest⟩, hs, h⟩ := Option.bind_eq_some_iff.mp h
        obtain ⟨rest, -, h⟩ := Option.bind_eq_some_iff.mp h
        obtain ⟨statements, hstatements, h⟩ := Option.bind_eq_some_iff.mp h
        cases h
        exact List.forall_mem_cons.mpr ⟨readStatement_inWord hs, ih hstatements⟩

/-- **The table of a document is well formed.** -/
theorem read_wellFormed {text : String} (h : read text = some es) : WellFormed es := by
  obtain ⟨statements, hstatements, h⟩ := Option.bind_eq_some_iff.mp h
  exact build_wellFormed wellFormed_nil (readStatements_inWord hstatements) h

end EliminationOrder.Toml

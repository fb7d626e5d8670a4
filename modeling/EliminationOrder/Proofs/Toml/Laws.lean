/-
What is relied on when a library reads and writes records.

`ReadsRecords` and `WritesRecords` are the laws: those of the format, and how a record follows
from its description.  One thing is left open by them, which values count as having nothing in
them where a choice is written as a table (`hollow`); empty tables do, and nothing that is not
empty does.

From the laws a table is made into a record exactly if it fits the description
(`decode_some_iff`), and a record comes back from its document (`decode_encode`).  The latter
is about what is not written: a field that holds nothing is left out, so it comes back only if
that is also what the field holds where its name is missing.
-/
import Mathlib
import EliminationOrder.Toml.Library
import EliminationOrder.Toml.Text

namespace EliminationOrder.Toml

/-! ### Values -/

/-- A value that is an integer is one of 64 bits with a sign. -/
def InWord (v : Value) : Prop :=
  ∀ n, v = .integer n → -2 ^ 63 ≤ n ∧ n ≤ 2 ^ 63 - 1

/-- A value that is a floating-point number is not NaN. -/
def NotNaN (v : Value) : Prop :=
  ∀ x, v = .float x → x.isNaN = false

/-- No name occurs twice, and no integer is out of range. -/
structure WellFormed (es : Entries) : Prop where
  names : (es.map Prod.fst).Nodup
  words : ∀ e ∈ es, InWord e.2

/-- An empty table, however it came about. -/
def EmptyTable (v : Value) : Prop :=
  ∃ form, v = .table form []

/-- An empty table or an empty array. -/
def Hollow (v : Value) : Prop :=
  EmptyTable v ∨ v = .array []

/-! ### What fields hold -/

namespace Shape

/-- A value stands for what a field may hold: a choice by its name, or by a table with only that
name and nothing under it, a number by any number. -/
def Means (hollow : Value → Prop) : {α : Type} → Shape α → Value → α → Prop
  | _, .choice _ name, v, a =>
    v = .string (name a) ∨ ∃ form inner, hollow inner ∧ v = .table form [(name a, inner)]
  | _, .number, v, x => v = .float x ∨ ∃ n, v = .integer n ∧ x = Float.ofInt n
  | _, .optionalNatural, v, o => ∃ n : ℕ, v = .integer n ∧ o = some n

/-- The value that is written for what a field holds; there is none where it holds nothing. -/
def value? : {α : Type} → Shape α → α → Option Value
  | _, .choice _ name, a => some (.string (name a))
  | _, .number, x => some (.float x)
  | _, .optionalNatural, o => o.map fun (n : ℕ) => .integer n

end Shape

/-- A name that needs no quotes. -/
structure Bare (name : List Char) : Prop where
  ne_nil : name ≠ []
  chars : ∀ c ∈ name, isBare c = true

/-- All choices are listed, and have different names that need no quotes. -/
def Shape.Proper : {α : Type} → Shape α → Prop
  | _, .choice all name =>
    (∀ a, a ∈ all) ∧ Function.Injective name ∧ ∀ a, Bare (name a).toList
  | _, .number | _, .optionalNatural => True

/-- What a field holds if it holds nothing is what it holds where its name is missing. -/
def Field.Omits (f : Field) : Prop :=
  ∀ x, f.shape.value? x = none → x = f.standard

/-- Fields have different names that need no quotes, as do the choices of each. -/
structure RecordType.Proper (S : RecordType) : Prop where
  names : (S.fields.map Field.name).Nodup
  bare : ∀ f ∈ S.fields, Bare f.name.toList
  shapes : ∀ f ∈ S.fields, f.shape.Proper

/-- What a table says of one field: the value under its name, or the standard one. -/
structure Given {β : Type} (t : Entries) (name : String) (means : Value → β → Prop) (standard b : β) :
    Prop where
  present : ∀ v, (name, v) ∈ t → means v b
  missing : (∀ v, (name, v) ∉ t) → b = standard

/-! ### Records -/

variable {hollow : Value → Prop} {S : RecordType} {fs : List Field} {t : Entries} {text : String}

/-- Something holds of each field and of what it holds. -/
def Each (P : (f : Field) → f.Carrier → Prop) : {fs : List Field} → Record fs → Prop
  | [], _ => True
  | f :: _, (x, r) => P f x ∧ Each P r

theorem Each.imp {P Q : (f : Field) → f.Carrier → Prop} {r : Record fs}
    (hPQ : ∀ f ∈ fs, ∀ x, P f x → Q f x) (h : Each P r) : Each Q r := by
  induction fs with
  | nil => trivial
  | cons f fs ih =>
      obtain ⟨x, r⟩ := r
      obtain ⟨hx, hr⟩ := h
      exact ⟨hPQ f List.mem_cons_self x hx, ih (fun g hg => hPQ g (List.mem_cons_of_mem f hg)) hr⟩

theorem Each.exists_of_mem {P : (f : Field) → f.Carrier → Prop} {r : Record fs} {f : Field}
    (h : Each P r) (hf : f ∈ fs) : ∃ x, P f x := by
  induction fs with
  | nil => exact absurd hf List.not_mem_nil
  | cons g fs ih =>
      obtain ⟨x, r⟩ := r
      obtain ⟨hx, hr⟩ := h
      rcases List.mem_cons.mp hf with rfl | hf
      · exact ⟨x, hx⟩
      · exact ih hr hf

/-- The entries of a record, one for each field that holds something. -/
def entriesOf : (fs : List Field) → Record fs → Entries
  | [], _ => []
  | f :: fs, (x, r) => ((f.shape.value? x).map fun v => (f.name, v)).toList ++ entriesOf fs r

/-- A table fits a record: it has names of fields only, if others are refused, with values that stand
for what the fields may hold. -/
structure RecordType.Accepts (S : RecordType) (hollow : Value → Prop) (t : Entries) : Prop where
  names : S.strict = true → ∀ e ∈ t, ∃ f ∈ S.fields, f.name = e.1
  values : ∀ f ∈ S.fields, ∀ v, (f.name, v) ∈ t → ∃ x, f.shape.Means hollow v x

/-! ### The laws -/

/-- What is relied on when records are read. -/
structure ReadsRecords [Library] (hollow : Value → Prop) : Prop where
  /-- In the table of a document no name stands twice, and integers are of 64 bits. -/
  wellFormed : ∀ {text t}, Library.parse text = some t → WellFormed t
  /-- An empty table has nothing in it. -/
  emptyTable : ∀ {v}, EmptyTable v → hollow v
  /-- What has nothing in it is empty. -/
  empty : ∀ {v}, hollow v → Hollow v
  /-- A name that no field has is refused where that is asked for. -/
  unknown : ∀ {S : RecordType} {text t}, S.Proper → Library.parse text = some t → S.strict = true →
    ∀ e ∈ t, (∀ f ∈ S.fields, f.name ≠ e.1) → Library.decode S text = none
  /-- A value that stands for nothing its field may hold is refused. -/
  unfit : ∀ {S : RecordType} {text t}, S.Proper → Library.parse text = some t → ∀ f ∈ S.fields,
    ∀ v, (f.name, v) ∈ t → (∀ x, ¬ f.shape.Means hollow v x) → Library.decode S text = none
  /-- Nothing else is refused, a name that is missing included. -/
  taken : ∀ {S : RecordType} {text t}, S.Proper → Library.parse text = some t →
    S.Accepts hollow t → ∃ r, Library.decode S text = some r
  /-- Each field holds what the value under its name stands for, and its standard where there is none. -/
  given : ∀ {S : RecordType} {text t r}, S.Proper → Library.parse text = some t →
    Library.decode S text = some r →
    Each (fun f x => Given t f.name (f.shape.Means hollow) f.standard x) r

/-- What is relied on when records are written. -/
structure WritesRecords [Library] : Prop where
  /-- A record is written if and only if all its integers are integers of the format. -/
  encode_some_iff : ∀ {S : RecordType} {r}, S.Proper →
    ((∃ text, Library.encode S r = some text) ↔ ∀ e ∈ entriesOf S.fields r, InWord e.2)
  /-- What is written is a document with the entries of the record, if all its numbers are numbers. -/
  parse_encode : ∀ {S : RecordType} {r text}, S.Proper → Library.encode S r = some text →
    (∀ e ∈ entriesOf S.fields r, NotNaN e.2) →
    ∃ t, Library.parse text = some t ∧ ∀ e, e ∈ t ↔ e ∈ entriesOf S.fields r

/-- **A table is made into a record exactly if it fits.** -/
theorem decode_some_iff [Library] (hreads : ReadsRecords hollow) (hS : S.Proper)
    (hparse : Library.parse text = some t) :
    (∃ r, Library.decode S text = some r) ↔ S.Accepts hollow t := by
  refine ⟨fun ⟨r, hr⟩ => ⟨fun hstrict e he => ?_, fun f hf v hv => ?_⟩,
    hreads.taken hS hparse⟩
  · by_contra hnone
    push Not at hnone
    rw [hreads.unknown hS hparse hstrict e he hnone] at hr
    cases hr
  · by_contra hnone
    push Not at hnone
    rw [hreads.unfit hS hparse f hf v hv hnone] at hr
    cases hr

/-! ### Entries of records -/

variable {α : Type} {s : Shape α} {a b : α} {v : Value}

/-- What is written for something stands for it. -/
theorem Shape.means_of_value (h : s.value? a = some v) : s.Means hollow v a := by
  cases s with
  | choice all name => exact Or.inl (Option.some.inj h).symm
  | number => exact Or.inl (Option.some.inj h).symm
  | optionalNatural =>
      obtain ⟨n, rfl, rfl⟩ := Option.map_eq_some_iff.mp h
      exact ⟨n, rfl, rfl⟩

/-- **What is written for something stands for nothing else.** -/
theorem Shape.eq_of_means (hs : s.Proper) (h : s.value? a = some v) (hb : s.Means hollow v b) :
    b = a := by
  cases s with
  | choice all name =>
      obtain rfl := Option.some.inj h
      rcases hb with hb | ⟨form, inner, -, hb⟩
      · rw [Value.string.injEq] at hb
        exact (hs.2.1 hb).symm
      · cases hb
  | number =>
      obtain rfl := Option.some.inj h
      rcases hb with hb | ⟨n, hb, -⟩
      · exact (Value.float.inj hb).symm
      · cases hb
  | optionalNatural =>
      obtain ⟨n, rfl, rfl⟩ := Option.map_eq_some_iff.mp h
      obtain ⟨m, hm, rfl⟩ := hb
      rw [Value.integer.injEq, Int.natCast_inj] at hm
      rw [hm]

theorem exists_field_of_mem {r : Record fs} {e : String × Value} (he : e ∈ entriesOf fs r) :
    ∃ f ∈ fs, f.name = e.1 := by
  induction fs with
  | nil => exact absurd he List.not_mem_nil
  | cons f fs ih =>
      obtain ⟨x, r⟩ := r
      rcases List.mem_append.mp he with he | he
      · rw [Option.mem_toList, Option.map_eq_some_iff] at he
        obtain ⟨v, -, rfl⟩ := he
        exact ⟨f, List.mem_cons_self, rfl⟩
      · obtain ⟨g, hg, hname⟩ := ih he
        exact ⟨g, List.mem_cons_of_mem f hg, hname⟩

/-- **Under the name of a field stands what the field holds**, and nothing else. -/
theorem each_entriesOf (hnames : (fs.map Field.name).Nodup) (r : Record fs) :
    Each (fun f x => ∀ v, (f.name, v) ∈ entriesOf fs r ↔ f.shape.value? x = some v) r := by
  induction fs with
  | nil => trivial
  | cons f fs ih =>
      obtain ⟨x, r⟩ := r
      rw [List.map_cons, List.nodup_cons, List.mem_map] at hnames
      obtain ⟨hnew, hnames⟩ := hnames
      have hcons : ∀ (name : String) (v : Value), (name, v) ∈ entriesOf (f :: fs) (x, r) ↔
          (f.shape.value? x = some v ∧ f.name = name) ∨ (name, v) ∈ entriesOf fs r := by
        intro name v
        rw [entriesOf, List.mem_append, Option.mem_toList, Option.map_eq_some_iff]
        simp
      refine ⟨fun v => ?_, (ih hnames r).imp fun g hg y hy v => ?_⟩
      · rw [hcons]
        refine or_iff_left (fun hmem => ?_) |>.trans (and_iff_left rfl)
        obtain ⟨g, hg, hname⟩ := exists_field_of_mem hmem
        exact hnew ⟨g, hg, hname⟩
      · rw [hcons, ← hy v]
        exact or_iff_right fun h => hnew ⟨g, hg, h.2.symm⟩

/-- Two records are one if one table says each field of both. -/
theorem eq_of_given {r r' : Record fs} (hshapes : ∀ f ∈ fs, f.shape.Proper)
    (homits : ∀ f ∈ fs, f.Omits)
    (hwritten : Each (fun f x => ∀ v, (f.name, v) ∈ t ↔ f.shape.value? x = some v) r)
    (hgiven : Each (fun f x => Given t f.name (f.shape.Means hollow) f.standard x) r') : r' = r := by
  induction fs with
  | nil => rfl
  | cons f fs ih =>
      obtain ⟨x, r⟩ := r
      obtain ⟨y, r'⟩ := r'
      rw [List.forall_mem_cons] at hshapes homits
      have hxy : y = x := by
        cases hv : f.shape.value? x with
        | none =>
            have hmissing : ∀ v, (f.name, v) ∉ t := fun v hmem => by
              rw [hwritten.1 v, hv] at hmem
              cases hmem
            rw [hgiven.1.missing hmissing, homits.1 x hv]
        | some v =>
            have hmem : (f.name, v) ∈ t := (hwritten.1 v).mpr hv
            exact f.shape.eq_of_means hshapes.1 hv (hgiven.1.present v hmem)
      rw [hxy, ih hshapes.2 homits.2 hwritten.2 hgiven.2]

/-- **A record comes back from its document.** -/
theorem decode_encode [Library] {r : Record S.fields} (hreads : ReadsRecords hollow)
    (hwrites : WritesRecords) (hS : S.Proper) (homits : ∀ f ∈ S.fields, f.Omits)
    (hencode : Library.encode S r = some text) (hnumbers : ∀ e ∈ entriesOf S.fields r, NotNaN e.2) :
    Library.decode S text = some r := by
  obtain ⟨t, hparse, hentries⟩ := hwrites.parse_encode hS hencode hnumbers
  have hwritten : Each (fun f x => ∀ v, (f.name, v) ∈ t ↔ f.shape.value? x = some v) r :=
    (each_entriesOf hS.names r).imp fun f _ x hx v => by rw [hentries, hx]
  have haccepts : S.Accepts hollow t := by
    refine ⟨fun _ e he => exists_field_of_mem ((hentries e).mp he), fun f hf v hv => ?_⟩
    obtain ⟨x, hx⟩ := hwritten.exists_of_mem hf
    exact ⟨x, Shape.means_of_value ((hx v).mp hv)⟩
  obtain ⟨r', hdecode⟩ := hreads.taken hS hparse haccepts
  rw [hdecode, eq_of_given hS.shapes homits hwritten (hreads.given hS hparse hdecode)]

end EliminationOrder.Toml

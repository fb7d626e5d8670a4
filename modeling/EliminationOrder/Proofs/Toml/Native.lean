/-
The library that the program comes with keeps the laws.

Reading goes field by field.  What a field is made to hold is decided by the only value that a
well-formed table can have under its name (`Field.read_eq_some_iff`), and the fields of a record
are read one independently of the other (`readFields_eq_some_iff`).

Writing goes line by line.  A field that holds something has a line whose text is read as the
value that is written for it (`Shape.reads_write`), so the document of a record is one of lines,
and the table of such a document has been found already.
-/
import EliminationOrder.Proofs.Toml.Lines
import EliminationOrder.Proofs.Toml.Tables

namespace EliminationOrder.Toml

variable {α : Type} {s : Shape α} {a : α} {v : Value} {t : Entries} {name text : String}
  {f : Field} {fs : List Field} {S : RecordType}

/-! ### Values that fit -/

theorem holdsNothing_iff : holdsNothing v = true ↔ Hollow v := by
  unfold holdsNothing
  split
  · rename_i form
    exact iff_of_true rfl (Or.inl ⟨form, rfl⟩)
  · exact iff_of_true rfl (Or.inr rfl)
  · rename_i htable harray
    refine iff_of_false Bool.false_ne_true ?_
    rintro (⟨form, rfl⟩ | rfl)
    · exact htable form rfl
    · exact harray rfl

section Choices

variable {all : List α} {choiceName : α → String}

theorem find?_eq_some (hs : (Shape.choice all choiceName).Proper) :
    (all.find? fun b => choiceName b == name) = some a ↔ name = choiceName a := by
  obtain ⟨hall, hinjective, -⟩ := hs
  constructor
  · intro h
    have hname := List.find?_some h
    exact (beq_iff_eq.mp hname).symm
  · rintro rfl
    obtain ⟨b, hb⟩ : ∃ b, (all.find? fun b => choiceName b == choiceName a) = some b :=
      Option.isSome_iff_exists.mp (List.find?_isSome.mpr ⟨a, hall a, beq_self_eq_true _⟩)
    have hname := List.find?_some hb
    rw [hb, hinjective (beq_iff_eq.mp hname)]

theorem choiceOf?_eq_some (hs : (Shape.choice all choiceName).Proper) :
    choiceOf? all choiceName v = some a ↔ (Shape.choice all choiceName).Means Hollow v a := by
  unfold choiceOf? Shape.Means
  split
  · rename_i name
    rw [find?_eq_some hs]
    simp
  · rename_i form name inner
    by_cases hhollow : holdsNothing inner = true
    · rw [if_pos hhollow, find?_eq_some hs]
      rw [holdsNothing_iff] at hhollow
      constructor
      · rintro rfl
        exact Or.inr ⟨form, inner, hhollow, rfl⟩
      · rintro (h | ⟨form', inner', -, h⟩)
        · cases h
        · cases h
          rfl
    · rw [if_neg hhollow]
      rw [holdsNothing_iff] at hhollow
      refine iff_of_false (fun h => by cases h) ?_
      rintro (h | ⟨form', inner', hinner, h⟩)
      · cases h
      · cases h
        exact hhollow hinner
  · rename_i hstring htable
    refine iff_of_false (fun h => by cases h) ?_
    rintro (rfl | ⟨form, inner, -, rfl⟩)
    · exact hstring _ rfl
    · exact htable _ _ _ rfl

end Choices

theorem numberOf?_eq_some {x : Float} : numberOf? v = some x ↔ Shape.number.Means Hollow v x := by
  unfold numberOf? Shape.Means
  split
  · simp
  · rename_i n
    simp [eq_comm]
  · rename_i hfloat hinteger
    refine iff_of_false (fun h => by cases h) ?_
    rintro (rfl | ⟨n, rfl, -⟩)
    · exact hfloat _ rfl
    · exact hinteger _ rfl

theorem naturalOf?_eq_some {n : ℕ} : naturalOf? v = some n ↔ v = .integer n := by
  unfold naturalOf?
  split
  · rw [Value.integer.injEq]
    split
    · rw [Option.some.injEq]
      omega
    · refine iff_of_false (fun h => by cases h) ?_
      omega
  · rename_i hinteger
    refine iff_of_false (fun h => by cases h) ?_
    rintro rfl
    exact hinteger _ rfl

/-- **A value makes a field hold what it stands for.** -/
theorem Shape.read_eq_some (hs : s.Proper) : s.read v = some a ↔ s.Means Hollow v a := by
  cases s with
  | choice all name => exact choiceOf?_eq_some hs
  | number => exact numberOf?_eq_some
  | optionalNatural =>
      rw [Shape.read, Option.map_eq_some_iff]
      refine exists_congr fun n => and_congr naturalOf?_eq_some ?_
      exact eq_comm

/-! ### Reading -/

theorem lookup_eq_some_iff (hnames : (t.map Prod.fst).Nodup) :
    t.lookup name = some v ↔ (name, v) ∈ t := by
  constructor
  · intro h
    obtain ⟨before, after, rfl, -⟩ := List.lookup_eq_some_iff.mp h
    exact List.mem_append_right before List.mem_cons_self
  · intro hmem
    cases h : t.lookup name with
    | none =>
        have hne := List.lookup_eq_none_iff.mp h _ hmem
        exact absurd hne (by simp)
    | some w =>
        obtain ⟨before, after, rfl, -⟩ := List.lookup_eq_some_iff.mp h
        have hpair := List.inj_on_of_nodup_map hnames hmem
          (List.mem_append_right before List.mem_cons_self) rfl
        cases hpair
        rfl

/-- **A field is read as the table says.** -/
theorem Field.read_eq_some_iff (hnames : (t.map Prod.fst).Nodup) (hf : f.shape.Proper)
    {x : f.Carrier} :
    f.read t = some x ↔ Given t f.name (f.shape.Means Hollow) f.standard x := by
  unfold Field.read
  split
  · rename_i v hlookup
    have hv := (lookup_eq_some_iff hnames).mp hlookup
    rw [Shape.read_eq_some hf]
    refine ⟨fun h => ⟨fun w hw => ?_, fun hnone => absurd hv (hnone v)⟩, fun h => h.present v hv⟩
    rw [← lookup_eq_some_iff hnames, hlookup] at hw
    cases hw
    exact h
  · rename_i hlookup
    have hnone : ∀ v, (f.name, v) ∉ t := fun v hv => by
      rw [← lookup_eq_some_iff hnames, hlookup] at hv
      cases hv
    rw [Option.some.injEq, eq_comm]
    exact ⟨fun h => ⟨fun v hv => absurd hv (hnone v), fun _ => h⟩, fun h => h.missing hnone⟩

/-- A field can be read if a value under its name stands for something. -/
theorem Field.exists_read_iff (hnames : (t.map Prod.fst).Nodup) (hf : f.shape.Proper) :
    (∃ x, f.read t = some x) ↔ ∀ v, (f.name, v) ∈ t → ∃ x, f.shape.Means Hollow v x := by
  unfold Field.read
  split
  · rename_i v hlookup
    simp only [Shape.read_eq_some hf, ← lookup_eq_some_iff hnames, hlookup, Option.some.injEq]
    simp
  · rename_i hlookup
    simp [← lookup_eq_some_iff hnames, hlookup]

theorem readFields_eq_some_iff {r : Record fs} :
    readFields t fs = some r ↔ Each (fun f x => f.read t = some x) r := by
  induction fs with
  | nil => exact iff_of_true rfl trivial
  | cons f fs ih =>
      obtain ⟨x, r⟩ := r
      constructor
      · intro h
        obtain ⟨y, hy, h⟩ := Option.bind_eq_some_iff.mp h
        obtain ⟨r', hr', h⟩ := Option.bind_eq_some_iff.mp h
        cases h
        exact ⟨hy, ih.mp hr'⟩
      · rintro ⟨hx, hr⟩
        rw [readFields, hx, ih.mpr hr]
        rfl

theorem exists_readFields_iff :
    (∃ r, readFields t fs = some r) ↔ ∀ f ∈ fs, ∃ x, f.read t = some x := by
  constructor
  · rintro ⟨r, hr⟩ f hf
    exact (readFields_eq_some_iff.mp hr).exists_of_mem hf
  · intro h
    induction fs with
    | nil => exact ⟨(), rfl⟩
    | cons f fs ih =>
        rw [List.forall_mem_cons] at h
        obtain ⟨⟨x, hx⟩, h⟩ := h
        obtain ⟨r, hr⟩ := ih h
        exact ⟨(x, r), by rw [readFields, hx, hr]; rfl⟩

/-- Some name of the table is that of no field. -/
theorem unknown_iff : (t.any fun e => !S.fields.any fun f => f.name == e.1) = true ↔
    ∃ e ∈ t, ∀ f ∈ S.fields, f.name ≠ e.1 := by
  simp

/-- A table is made into a record field by field, if all its names are tolerated. -/
theorem RecordType.ofEntries?_eq (hknown : S.strict = true → ∀ e ∈ t, ∃ f ∈ S.fields, f.name = e.1) :
    S.ofEntries? t = readFields t S.fields := by
  rw [RecordType.ofEntries?, if_neg]
  rw [Bool.and_eq_true, unknown_iff]
  rintro ⟨hstrict, e, he, hnone⟩
  obtain ⟨f, hf, hname⟩ := hknown hstrict e he
  exact hnone f hf hname

theorem decode_eq (hparse : read text = some t) : Library.decode S text = S.ofEntries? t := by
  show (read text).bind S.ofEntries? = S.ofEntries? t
  rw [hparse, Option.bind_some]

/-- **Records are read by the laws**, with empty tables and empty arrays as what has nothing in it. -/
theorem native_readsRecords : ReadsRecords Hollow where
  wellFormed := read_wellFormed
  emptyTable := Or.inl
  empty := id
  unknown hS hparse hstrict e he hnone := by
    rw [decode_eq hparse, RecordType.ofEntries?, if_pos]
    rw [Bool.and_eq_true, unknown_iff]
    exact ⟨hstrict, e, he, hnone⟩
  unfit {S text t} hS hparse f hf v hv hnone := by
    have hnames := (read_wellFormed hparse).names
    rw [decode_eq hparse, RecordType.ofEntries?]
    split
    · rfl
    · rw [Option.eq_none_iff_forall_ne_some]
      intro r hr
      have hread := exists_readFields_iff.mp ⟨r, hr⟩ f hf
      rw [Field.exists_read_iff hnames (hS.shapes f hf)] at hread
      obtain ⟨x, hx⟩ := hread v hv
      exact hnone x hx
  taken {S text t} hS hparse haccepts := by
    have hnames := (read_wellFormed hparse).names
    rw [decode_eq hparse, RecordType.ofEntries?_eq haccepts.names, exists_readFields_iff]
    intro f hf
    rw [Field.exists_read_iff hnames (hS.shapes f hf)]
    exact haccepts.values f hf
  given {S text t r} hS hparse hdecode := by
    have hnames := (read_wellFormed hparse).names
    rw [decode_eq hparse, RecordType.ofEntries?] at hdecode
    split at hdecode
    · cases hdecode
    · exact (readFields_eq_some_iff.mp hdecode).imp fun f hf x hx =>
        (Field.read_eq_some_iff hnames (hS.shapes f hf)).mp hx

/-! ### Writing -/

theorem Shape.writable_iff : s.writable a = true ↔ ∀ v, s.value? a = some v → InWord v := by
  cases s with
  | choice all name =>
      refine iff_of_true rfl ?_
      rintro _ ⟨⟩ n h
      cases h
  | number =>
      refine iff_of_true rfl ?_
      rintro _ ⟨⟩ n h
      cases h
  | optionalNatural =>
      cases a with
      | none =>
          refine iff_of_true rfl ?_
          rintro _ ⟨⟩
      | some n =>
          have hmax : Int64.maxValue.toInt = 2 ^ 63 - 1 := rfl
          rw [Shape.writable, decide_eq_true_iff, hmax]
          constructor
          · rintro hle _ ⟨⟩ m hm
            cases hm
            omega
          · intro h
            exact (h (.integer n) rfl n rfl).2

theorem writableFields_iff {r : Record fs} :
    writableFields fs r = true ↔ ∀ e ∈ entriesOf fs r, InWord e.2 := by
  induction fs with
  | nil => exact iff_of_true rfl fun _ he => absurd he List.not_mem_nil
  | cons f fs ih =>
      obtain ⟨x, r⟩ := r
      rw [writableFields, Bool.and_eq_true, Shape.writable_iff, ih, entriesOf, List.forall_mem_append]
      simp

/-- What a name without quotes may hold, a string holds as it is. -/
theorem isVerbatim_of_isBare {c : Char} (hc : isBare c = true) : isVerbatim c = true := by
  have hspace : ' ' ≤ c := by
    rw [isBare, Char.isAlphanum, Char.isAlpha, Char.isUpper, Char.isLower, Char.isDigit] at hc
    simp only [Bool.or_eq_true, Bool.and_eq_true, decide_eq_true_eq, beq_iff_eq] at hc
    show 32 ≤ c.toNat
    rcases hc with (((hc | hc) | hc) | rfl) | rfl
    · exact Nat.le_trans (by decide) hc.1
    · exact Nat.le_trans (by decide) hc.1
    · exact Nat.le_trans (by decide) hc.1
    · decide
    · decide
  have hdelete : c ≠ '\x7f' := Decimal.ne_of_class hc rfl
  have hquote : c ≠ '"' := Decimal.ne_of_class hc rfl
  have hbackslash : c ≠ '\\' := Decimal.ne_of_class hc rfl
  simp [isVerbatim, isPlain, hspace, hdelete, hquote, hbackslash]

/-- **What a field holds is written as the text of its value**, or not at all. -/
theorem Shape.reads_write (hs : s.Proper) (a : α) (hword : ∀ v, s.value? a = some v → InWord v)
    (hnumber : ∀ v, s.value? a = some v → NotNaN v) :
    (s.write? a = none ∧ s.value? a = none) ∨
      ∃ text v, s.write? a = some text ∧ s.value? a = some v ∧ Reads text v := by
  cases s with
  | choice all name =>
      have hbare := hs.2.2 a
      have hreads := reads_string (name a).toList hbare.ne_nil fun c hc =>
        isVerbatim_of_isBare (hbare.chars c hc)
      rw [String.ofList_toList] at hreads
      exact Or.inr ⟨_, _, rfl, rfl, hreads⟩
  | number => exact Or.inr ⟨_, _, rfl, rfl, reads_float (hnumber (.float a) rfl a rfl)⟩
  | optionalNatural =>
      cases a with
      | none => exact Or.inl ⟨rfl, rfl⟩
      | some n =>
          have hmax : Int64.maxValue.toInt = 2 ^ 63 - 1 := rfl
          have hn := (hword (.integer n) rfl n rfl).2
          exact Or.inr ⟨_, _, rfl, rfl, reads_integer (by rw [hmax]; exact hn)⟩

/-- The document of a record is one of lines. -/
theorem exists_lines {r : Record fs} (hbare : ∀ f ∈ fs, Bare f.name.toList)
    (hshapes : ∀ f ∈ fs, f.shape.Proper) (hwords : ∀ e ∈ entriesOf fs r, InWord e.2)
    (hnumbers : ∀ e ∈ entriesOf fs r, NotNaN e.2) :
    ∃ ls : List Line, linesText ls = writeFields fs r ∧ linesEntries ls = entriesOf fs r := by
  induction fs with
  | nil => exact ⟨[], rfl, rfl⟩
  | cons f fs ih =>
      obtain ⟨x, r⟩ := r
      rw [List.forall_mem_cons] at hbare hshapes
      rw [entriesOf, List.forall_mem_append] at hwords hnumbers
      obtain ⟨ls, htext, hentries⟩ := ih hbare.2 hshapes.2 hwords.2 hnumbers.2
      rcases Shape.reads_write hshapes.1 x (by simpa using hwords.1) (by simpa using hnumbers.1) with
        ⟨hwrite, hvalue⟩ | ⟨text, v, hwrite, hvalue, hreads⟩
      · exact ⟨ls, by rw [htext, writeFields, hwrite], by rw [hentries, entriesOf, hvalue]; rfl⟩
      · refine ⟨⟨f.name, text, v, hbare.1, hreads⟩ :: ls, ?_, ?_⟩
        · rw [writeFields, hwrite, ← htext]
          rfl
        · rw [entriesOf, hvalue, ← hentries]
          rfl

theorem encode_eq_some {r : Record S.fields} : Library.encode S r = some text ↔
    writableFields S.fields r = true ∧ String.ofList (writeFields S.fields r) = text := by
  show (if writableFields S.fields r then some (String.ofList (writeFields S.fields r)) else none)
    = some text ↔ _
  rw [Option.ite_none_right_eq_some, Option.some.injEq]

/-- The entries of a record have the names of some of its fields, in order. -/
theorem names_entriesOf_sublist (fs : List Field) (r : Record fs) :
    ((entriesOf fs r).map Prod.fst).Sublist (fs.map Field.name) := by
  induction fs with
  | nil => exact List.Sublist.slnil
  | cons f fs ih =>
      obtain ⟨x, r⟩ := r
      rw [entriesOf]
      cases f.shape.value? x with
      | none => exact (ih r).cons f.name
      | some v => exact (ih r).cons_cons f.name

/-- **Records are written by the laws.** -/
theorem native_writesRecords : WritesRecords where
  encode_some_iff {S r} hS := by
    rw [← writableFields_iff]
    constructor
    · rintro ⟨text, htext⟩
      exact (encode_eq_some.mp htext).1
    · exact fun h => ⟨_, encode_eq_some.mpr ⟨h, rfl⟩⟩
  parse_encode {S r text} hS hencode hnumbers := by
    obtain ⟨hwritable, rfl⟩ := encode_eq_some.mp hencode
    obtain ⟨ls, htext, hentries⟩ := exists_lines hS.bare hS.shapes
      (writableFields_iff.mp hwritable) hnumbers
    have hnames : ls.map Line.name = (entriesOf S.fields r).map Prod.fst := by
      rw [← hentries, linesEntries, List.map_map]
      rfl
    have hnodup : (ls.map Line.name).Nodup := by
      rw [hnames]
      exact hS.names.sublist (names_entriesOf_sublist S.fields r)
    refine ⟨entriesOf S.fields r, ?_, fun e => Iff.rfl⟩
    show read (String.ofList (writeFields S.fields r)) = some (entriesOf S.fields r)
    rw [← htext, ← hentries]
    exact read_lines ls hnodup

end EliminationOrder.Toml

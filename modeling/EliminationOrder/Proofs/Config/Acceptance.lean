/-
Which documents are configurations, and which configurations are methods.

A library that keeps the laws takes a table exactly if it fits the description of a
configuration, and for that description this says which names there may be and what may stand
under each (`accepts_iff`).  Integers are those of 64 bits, because the table of a document has no
others.  What a configuration is made of is decided field by field in the same way (`describes`).

The second judgement is about the hop ordering alone: its decay first, then its bound
(`judged`).
-/
import EliminationOrder.Message
import EliminationOrder.Proofs.Config.RoundTrip
import EliminationOrder.Proofs.Ordering.Method
import EliminationOrder.Proofs.Ordering.TotalOrder

namespace EliminationOrder.Config

open Toml (EmptyTable Entries Given Hollow ReadsRecords Value)

/-! ### Values that fit -/

/-- A value stands for a method: its name as a string, or as the only name in a table, above a
value with nothing in it. -/
def IsMethod (hollow : Value → Prop) (v : Value) (kind : MethodKind) : Prop :=
  v = .string kind.name ∨ ∃ form inner, hollow inner ∧ v = .table form [(kind.name, inner)]

/-- A value stands for a decay: a floating-point number, or an integer of 64 bits. -/
def IsDecay (v : Value) (x : Float) : Prop :=
  v = .float x ∨ ∃ n : ℤ, -2 ^ 63 ≤ n ∧ n ≤ 2 ^ 63 - 1 ∧ v = .integer n ∧ x = Float.ofInt n

/-- A value stands for a bound on hops: an integer of 64 bits that is not negative. -/
def IsMaxHops (v : Value) (hops : ℕ) : Prop :=
  hops ≤ 2 ^ 63 - 1 ∧ v = .integer hops

variable {hollow : Value → Prop} {v : Value} {c : Config} {t : Entries}

theorem isDecay_iff {x : Float} (hv : Toml.InWord v) :
    decayField.shape.Means hollow v x ↔ IsDecay v x := by
  refine or_congr_right (exists_congr fun n => ?_)
  constructor
  · rintro ⟨rfl, hx⟩
    exact ⟨(hv n rfl).1, (hv n rfl).2, rfl, hx⟩
  · exact fun h => h.2.2

theorem isMaxHops_iff {bound : Option ℕ} (hv : Toml.InWord v) :
    maxHopsField.shape.Means hollow v bound ↔ ∃ hops, bound = some hops ∧ IsMaxHops v hops := by
  refine exists_congr fun hops => ?_
  constructor
  · rintro ⟨rfl, hbound⟩
    have := (hv hops rfl).2
    exact ⟨hbound, by omega, rfl⟩
  · exact fun h => ⟨h.2.2, h.1⟩

/-! ### Tables that are configurations -/

/-- A table has the names of a configuration only, with values that fit them. -/
structure Acceptable (hollow : Value → Prop) (t : Entries) : Prop where
  names : ∀ e ∈ t, e.1 = "method" ∨ e.1 = "khop_decay" ∨ e.1 = "khop_max_hops"
  method : ∀ v, ("method", v) ∈ t → ∃ kind, IsMethod hollow v kind
  decay : ∀ v, ("khop_decay", v) ∈ t → ∃ x, IsDecay v x
  maxHops : ∀ v, ("khop_max_hops", v) ∈ t → ∃ hops, IsMaxHops v hops

theorem Acceptable.mono {hollow' : Value → Prop} (h : Acceptable hollow t)
    (hle : ∀ {v}, hollow v → hollow' v) : Acceptable hollow' t where
  names := h.names
  method v hv := by
    obtain ⟨kind, hname | ⟨form, inner, hinner, htable⟩⟩ := h.method v hv
    · exact ⟨kind, Or.inl hname⟩
    · exact ⟨kind, Or.inr ⟨form, inner, hle hinner, htable⟩⟩
  decay := h.decay
  maxHops := h.maxHops

/-- **A table fits the description if it has these names and values.** -/
theorem accepts_iff (ht : Toml.WellFormed t) : recordType.Accepts hollow t ↔ Acceptable hollow t := by
  have hnames : ∀ name : String, (∃ f ∈ recordType.fields, f.name = name) ↔
      name = "method" ∨ name = "khop_decay" ∨ name = "khop_max_hops" := by
    intro name
    simp [recordType, methodField, decayField, maxHopsField, eq_comm]
  constructor
  · rintro ⟨hknown, hvalues⟩
    obtain ⟨hmethod, hdecay, hmaxHops⟩ := forall_fields.mp hvalues
    refine ⟨fun e he => (hnames e.1).mp (hknown rfl e he), hmethod, fun v hv => ?_, fun v hv => ?_⟩
    · obtain ⟨x, hx⟩ := hdecay v hv
      exact ⟨x, (isDecay_iff (ht.words _ hv)).mp hx⟩
    · obtain ⟨bound, hbound⟩ := hmaxHops v hv
      obtain ⟨hops, -, hhops⟩ := (isMaxHops_iff (ht.words _ hv)).mp hbound
      exact ⟨hops, hhops⟩
  · rintro ⟨hknown, hmethod, hdecay, hmaxHops⟩
    refine ⟨fun _ e he => (hnames e.1).mpr (hknown e he),
      forall_fields.mpr ⟨hmethod, fun v hv => ?_, fun v hv => ?_⟩⟩
    · obtain ⟨x, hx⟩ := hdecay v hv
      exact ⟨x, (isDecay_iff (ht.words _ hv)).mpr hx⟩
    · obtain ⟨hops, hhops⟩ := hmaxHops v hv
      exact ⟨some hops, (isMaxHops_iff (ht.words _ hv)).mpr ⟨hops, rfl, hhops⟩⟩

/-- A table describes a configuration: each field as its entry says, or as in the standard one. -/
structure Describes (hollow : Value → Prop) (t : Entries) (c : Config) : Prop where
  method : Given t "method" (IsMethod hollow) .exactMinimumDegree c.method
  decay : Given t "khop_decay" IsDecay 0.5 c.decay
  maxHops : Given t "khop_max_hops" (fun v bound => ∃ hops, bound = some hops ∧ IsMaxHops v hops) none
    c.maxHops

/-- **A table describes the configuration that is made of it.** -/
theorem describes (ht : Toml.WellFormed t) {r : Toml.Record recordType.fields}
    (h : Toml.Each (fun f x => Given t f.name (f.shape.Means hollow) f.standard x) r) :
    Describes hollow t (ofRecord r) := by
  obtain ⟨method, decay, maxHops, ⟨⟩⟩ := r
  obtain ⟨hmethod, hdecay, hmaxHops, -⟩ := h
  exact {
    method := hmethod
    decay := ⟨fun v hv => (isDecay_iff (ht.words _ hv)).mp (hdecay.present v hv), hdecay.missing⟩
    maxHops :=
      ⟨fun v hv => (isMaxHops_iff (ht.words _ hv)).mp (hmaxHops.present v hv), hmaxHops.missing⟩ }

/-! ### Methods -/

/-- A decay that is no number, not positive, or one and more. -/
def OutOfRange (x : Float) : Prop :=
  x.isNaN = true ∨ ¬ 0 < x ∨ ¬ x < 1

/-- Nothing is smaller than what is no number. -/
theorem not_lt_of_isNaN {x y : Float} (h : y.isNaN = true) : ¬ x < y := by
  intro hlt
  have hmodel : x.toModel < y.toModel := of_decide_eq_true hlt
  have hcompare : x.toModel.unpack.compare y.toModel.unpack = some .lt := eq_of_beq hmodel
  have hnan : y.toModel.unpack.isNaN = true := h
  generalize x.toModel.unpack = u at hcompare
  generalize y.toModel.unpack = w at hcompare hnan
  cases w with
  | notANumber => cases u <;> simp [Float.Model.UnpackedFloat.compare] at hcompare
  | infinity | zero | finite => cases hnan

theorem outOfRange_iff {x : Float} : OutOfRange x ↔ ¬ (0 < x ∧ x < 1) := by
  constructor
  · rintro (h | h | h) ⟨hpos, hlt⟩
    · exact not_lt_of_isNaN h hpos
    · exact h hpos
    · exact h hlt
  · intro h
    exact Or.inr (not_and_or.mp h)

/-- A method is the configured one with the configured parameters, and orders every square matrix. -/
structure Builds (c : Config) (method : Method) : Prop where
  kind : method.kind = c.method
  parameters : ∀ k, method = .hopDegree k → k.decay = c.decay ∧ k.maxHops = c.maxHops
  orders : ∀ {α : Type} [Entry α] (a : StoredMatrix α), a.nrows = a.ncols →
    ∃ p, method.order a = .ok p ∧ p.Perm (List.range a.nrows)

/-- How a configuration is judged when it is used. -/
structure Judged (c : Config) : Prop where
  decay_refused : c.method = .hopDegree → OutOfRange c.decay →
    ∃ r, c.build = .error (.refused r) ∧ r.argument = "decay"
  maxHops_refused : c.method = .hopDegree → ¬ OutOfRange c.decay → c.maxHops = some 0 →
    ∃ r, c.build = .error (.refused r) ∧ r.argument = "khop_max_hops"
  builds : ¬ (c.method = .hopDegree ∧ (OutOfRange c.decay ∨ c.maxHops = some 0)) →
    ∃ method, c.build = .ok method ∧ Builds c method

/-- **Only the hop ordering is refused**, for its decay or else for its bound. -/
theorem judged (c : Config) : Judged c := by
  obtain ⟨kind, decay, maxHops⟩ := c
  refine ⟨?_, ?_, ?_⟩
  · rintro rfl hdecay
    rw [outOfRange_iff] at hdecay
    exact ⟨.decayOutOfRange decay, by simp [build, HopDegree.ofDecay, hdecay], rfl⟩
  · rintro rfl hdecay rfl
    rw [outOfRange_iff, not_not] at hdecay
    exact ⟨.zeroHops, by simp [build, HopDegree.ofDecay, hdecay], rfl⟩
  · intro h
    have hbuilds : ∀ method : Method, method.kind = kind →
        (∀ k, method = .hopDegree k → k.decay = decay ∧ k.maxHops = maxHops) →
        Builds ⟨kind, decay, maxHops⟩ method :=
      fun method hkind hparameters => ⟨hkind, hparameters, fun a => method.order_square_ok⟩
    cases kind with
    | exactMinimumDegree => exact ⟨_, rfl, hbuilds _ rfl nofun⟩
    | greedyMinimumFill => exact ⟨_, rfl, hbuilds _ rfl nofun⟩
    | approximateFill => exact ⟨_, rfl, hbuilds _ rfl nofun⟩
    | greedyRow => exact ⟨_, rfl, hbuilds _ rfl nofun⟩
    | hopDegree =>
        simp only [true_and, not_or, outOfRange_iff, not_not] at h
        obtain ⟨hdecay, hhops⟩ := h
        have hk : HopDegree.ofDecay decay = .ok ⟨decay, none, hdecay.1, hdecay.2⟩ := dif_pos hdecay
        match maxHops with
        | none =>
            refine ⟨.hopDegree ⟨decay, none, hdecay.1, hdecay.2⟩, by simp [build, hk], hbuilds _ rfl ?_⟩
            rintro k ⟨⟩
            exact ⟨rfl, rfl⟩
        | some 0 => exact absurd rfl hhops
        | some (hops + 1) =>
            refine ⟨.hopDegree ⟨decay, some (hops + 1), hdecay.1, hdecay.2⟩,
              by simp [build, hk, HopDegree.withMaxHops], hbuilds _ rfl ?_⟩
            rintro k ⟨⟩
            exact ⟨rfl, rfl⟩

/-! ### Documents -/

/-- **A document is taken exactly if its table is a configuration**, by any library that keeps the
laws; what has nothing in it where a method is written as a table is up to the library, between empty
tables and whatever is empty.  What becomes of the document is the configuration that the table
describes, and using that is refused for the parameters of the hop ordering only. -/
theorem ofToml_accepts [Toml.Library] (hreads : ReadsRecords hollow) {text : String}
    (hparse : Toml.Library.parse text = some t) :
    ((∃ c, ofToml text = .ok c) ↔ Acceptable hollow t) ∧
    (Acceptable EmptyTable t → Acceptable hollow t) ∧ (Acceptable hollow t → Acceptable Hollow t) ∧
    (¬ Acceptable hollow t → ofToml text = .error .config) ∧
    ∀ c, ofToml text = .ok c → Describes hollow t c ∧ Judged c := by
  have ht := hreads.wellFormed hparse
  have htaken := Toml.decode_some_iff hreads recordType_proper hparse
  rw [accepts_iff ht] at htaken
  refine ⟨?_, fun h => h.mono hreads.emptyTable, fun h => h.mono hreads.empty, fun hnot => ?_,
    fun c hc => ?_⟩
  · rw [← htaken]
    constructor
    · rintro ⟨c, hc⟩
      obtain ⟨r, hr, -⟩ := ofToml_eq_ok.mp hc
      exact ⟨r, hr⟩
    · rintro ⟨r, hr⟩
      exact ⟨ofRecord r, ofToml_eq_ok.mpr ⟨r, hr, rfl⟩⟩
  · refine ofToml_eq_error (Option.eq_none_iff_forall_ne_some.mpr fun r hr => ?_)
    exact hnot (htaken.mp ⟨r, hr⟩)
  · obtain ⟨r, hr, rfl⟩ := ofToml_eq_ok.mp hc
    exact ⟨describes ht (hreads.given recordType_proper hparse hr), judged _⟩

/-- A name above an empty array stands for a method, although an array is no table. -/
theorem emptyArray_accepted :
    ReadsRecords Hollow ∧
      Toml.Library.parse "method.greedy_row = []"
        = some [("method", .table .dotted [("greedy_row", .array [])])] ∧
      ¬ ((∃ c, ofToml "method.greedy_row = []" = .ok c) ↔
        Acceptable EmptyTable [("method", .table .dotted [("greedy_row", .array [])])]) := by
  have hparse : Toml.read "method.greedy_row = []"
      = some [("method", .table .dotted [("greedy_row", .array [])])] := by cbv
  refine ⟨Toml.native_readsRecords, hparse, fun hiff => ?_⟩
  have hacceptable : Acceptable Hollow [("method", .table .dotted [("greedy_row", .array [])])] := by
    constructor
    · simp
    · intro v hv
      rw [List.mem_singleton, Prod.mk.injEq] at hv
      exact ⟨.greedyRow, Or.inr ⟨.dotted, .array [], Or.inr rfl, hv.2⟩⟩
    · simp
    · simp
  have haccepts := (accepts_iff (Toml.read_wellFormed hparse)).mpr hacceptable
  obtain ⟨r, hr⟩ := Toml.native_readsRecords.taken recordType_proper hparse haccepts
  obtain ⟨kind, h⟩ := (hiff.mp ⟨_, ofToml_eq_ok.mpr ⟨r, hr, rfl⟩⟩).method _ List.mem_cons_self
  rcases h with h | ⟨form, inner, ⟨form', hinner⟩, h⟩
  · cases h
  · rw [Value.table.injEq, List.cons.injEq, Prod.mk.injEq, hinner] at h
    cases h.2.1.2

/-- A bound of zero is taken from a document, and refused when the method is built. -/
theorem ofToml_accepts_zeroHops :
    ReadsRecords Hollow ∧
    ∃ t c, Toml.Library.parse "method = 'khop_degree'\nkhop_max_hops = 0" = some t ∧
      ofToml "method = 'khop_degree'\nkhop_max_hops = 0" = .ok c ∧ Describes Hollow t c ∧
      ∃ r, c.build = .error (.refused r) ∧ r.argument = "khop_max_hops" := by
  have hparse : Toml.read "method = 'khop_degree'\nkhop_max_hops = 0"
      = some [("method", .string "khop_degree"), ("khop_max_hops", .integer 0)] := by cbv
  obtain ⟨hiff, -, -, -, hmeans⟩ := ofToml_accepts Toml.native_readsRecords hparse
  have hacceptable : Acceptable Hollow
      [("method", .string "khop_degree"), ("khop_max_hops", .integer 0)] := by
    constructor
    · simp
    · intro v hv
      obtain rfl : v = .string "khop_degree" := by simpa using hv
      exact ⟨.hopDegree, Or.inl rfl⟩
    · simp
    · intro v hv
      obtain rfl : v = .integer 0 := by simpa using hv
      exact ⟨0, by norm_num, rfl⟩
  obtain ⟨c, hc⟩ := hiff.mpr hacceptable
  obtain ⟨hdescribes, hjudged⟩ := hmeans c hc
  have hmethod : c.method = .hopDegree := by
    rcases hdescribes.method.present _ List.mem_cons_self with h | ⟨_, _, -, h⟩
    · rw [Value.string.injEq] at h
      exact name_injective h.symm
    · cases h
  have hdecay : c.decay = 0.5 := hdescribes.decay.missing (by simp)
  have hmaxHops : c.maxHops = some 0 := by
    obtain ⟨hops, hbound, -, h⟩ := hdescribes.maxHops.present (.integer 0) (by simp)
    rw [Value.integer.injEq] at h
    rw [hbound, show hops = 0 by omega]
  have hrange : ¬ OutOfRange c.decay := by
    rw [outOfRange_iff, not_not, hdecay]
    decide +kernel
  exact ⟨Toml.native_readsRecords, _, c, hparse, hc, hdescribes,
    hjudged.maxHops_refused hmethod hrange hmaxHops⟩

end EliminationOrder.Config

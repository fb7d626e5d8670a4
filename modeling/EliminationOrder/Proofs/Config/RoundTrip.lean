/-
A configuration reads back as it was written.

Whatever library reads and writes the documents, as long as it keeps the laws.  They ask that the
description of a configuration tells its fields and methods apart by plain names
(`recordType_proper`).  The rest is about the bound on hops.  It is the only field that can be left
out, and where it is missing there is none in the standard configuration either
(`recordType_omits`); and it is the only one that may be too large to be written (`words_iff`).
-/
import EliminationOrder.Config
import EliminationOrder.Proofs.Toml.Native

namespace EliminationOrder.Config

open Toml (Bare InWord NotNaN ReadsRecords WritesRecords entriesOf)

/-! ### The description of a configuration -/

theorem forall_fields {P : Toml.Field → Prop} :
    (∀ f ∈ recordType.fields, P f) ↔ P methodField ∧ P decayField ∧ P maxHopsField := by
  simp [recordType]

theorem mem_all (kind : MethodKind) : kind ∈ MethodKind.all := by
  cases kind <;> decide

theorem ofName?_name (kind : MethodKind) : MethodKind.ofName? kind.name = some kind := by
  cases kind <;> decide

theorem name_injective : Function.Injective MethodKind.name := by
  intro kind kind' h
  have hsame := ofName?_name kind
  rw [h, ofName?_name] at hsame
  exact (Option.some.inj hsame).symm

theorem bare_name (kind : MethodKind) : Bare kind.name.toList := by
  cases kind <;> exact ⟨by simp [MethodKind.name], List.all_eq_true.mp rfl⟩

/-- **Fields and methods are told apart by plain names.** -/
theorem recordType_proper : recordType.Proper where
  names := by decide
  bare := forall_fields.mpr
    ⟨⟨by simp [methodField], List.all_eq_true.mp rfl⟩, ⟨by simp [decayField], List.all_eq_true.mp rfl⟩,
      ⟨by simp [maxHopsField], List.all_eq_true.mp rfl⟩⟩
  shapes := forall_fields.mpr
    ⟨⟨mem_all, name_injective, bare_name⟩, trivial, trivial⟩

/-- **What is left out in writing is what holds where it is missing.** -/
theorem recordType_omits : ∀ f ∈ recordType.fields, f.Omits := by
  refine forall_fields.mpr ⟨?_, ?_, ?_⟩
  · rintro kind ⟨⟩
  · rintro decay ⟨⟩
  · rintro (- | hops) h
    · rfl
    · cases h

/-! ### The entries of a configuration -/

variable {c : Config} {text : String}

theorem ofRecord_toRecord (c : Config) : ofRecord c.toRecord = c :=
  rfl

theorem entriesOf_toRecord (c : Config) : entriesOf recordType.fields c.toRecord =
    ("method", .string c.method.name) :: ("khop_decay", .float c.decay) ::
      (c.maxHops.map fun hops => ("khop_max_hops", Toml.Value.integer (hops : ℕ))).toList := by
  obtain ⟨method, decay, maxHops⟩ := c
  cases maxHops <;> rfl

/-- The bound on hops is the only integer. -/
theorem words_iff : (∀ e ∈ entriesOf recordType.fields c.toRecord, InWord e.2) ↔
    ∀ hops, c.maxHops = some hops → hops ≤ 2 ^ 63 - 1 := by
  rw [entriesOf_toRecord, List.forall_mem_cons, List.forall_mem_cons]
  have hmethod : InWord (.string c.method.name) := fun n h => by cases h
  have hdecay : InWord (.float c.decay) := fun n h => by cases h
  refine (and_iff_right hmethod).trans ((and_iff_right hdecay).trans ?_)
  cases c.maxHops with
  | none => simp
  | some hops =>
      simp only [Option.map_some, Option.toList_some, List.forall_mem_singleton, Option.some.injEq,
        forall_eq']
      constructor
      · intro h
        have := (h hops rfl).2
        omega
      · rintro hle n ⟨⟩
        omega

/-- The decay is the only floating-point number. -/
theorem numbers_of_decay (h : c.decay.isNaN = false) :
    ∀ e ∈ entriesOf recordType.fields c.toRecord, NotNaN e.2 := by
  rw [entriesOf_toRecord, List.forall_mem_cons, List.forall_mem_cons]
  refine ⟨?_, ?_, fun e he x hx => ?_⟩
  · intro x hx
    cases hx
  · rintro x ⟨⟩
    exact h
  · rw [Option.mem_toList, Option.map_eq_some_iff] at he
    obtain ⟨hops, -, rfl⟩ := he
    cases hx

/-! ### Writing and reading -/

section Library

variable [Toml.Library]

theorem ofToml_eq_ok : ofToml text = .ok c ↔
    ∃ r, Toml.Library.decode recordType text = some r ∧ ofRecord r = c := by
  unfold ofToml
  cases Toml.Library.decode recordType text <;> simp

theorem ofToml_eq_error (h : Toml.Library.decode recordType text = none) :
    ofToml text = .error .config := by
  rw [ofToml, h]

theorem toToml_eq_ok :
    c.toToml = .ok text ↔ Toml.Library.encode recordType c.toRecord = some text := by
  unfold toToml
  cases Toml.Library.encode recordType c.toRecord <;> simp

theorem toToml_eq_error (h : Toml.Library.encode recordType c.toRecord = none) :
    c.toToml = .error .config := by
  rw [toToml, h]

end Library

/-- **A configuration reads back as it was written**, by any library that keeps the laws.  Whether it
can be written depends on the bound on hops alone, which has to be in the range of a document's
integers; only a decay that is no number does not come back as itself. -/
theorem ofToml_toToml [Toml.Library] {hollow : Toml.Value → Prop} (hreads : ReadsRecords hollow)
    (hwrites : WritesRecords) (c : Config) :
    ((∀ hops, c.maxHops = some hops → hops ≤ 2 ^ 63 - 1) →
      ∃ text, c.toToml = .ok text ∧ (c.decay.isNaN = false → ofToml text = .ok c)) ∧
    ∀ hops, c.maxHops = some hops → 2 ^ 63 - 1 < hops → c.toToml = .error .config := by
  have hwritten := hwrites.encode_some_iff (r := c.toRecord) recordType_proper
  rw [words_iff] at hwritten
  constructor
  · intro hrange
    obtain ⟨text, hencode⟩ := hwritten.mpr hrange
    refine ⟨text, toToml_eq_ok.mpr hencode, fun hdecay => ?_⟩
    have hdecode := Toml.decode_encode hreads hwrites recordType_proper recordType_omits hencode
      (numbers_of_decay hdecay)
    exact ofToml_eq_ok.mpr ⟨c.toRecord, hdecode, ofRecord_toRecord c⟩
  · intro hops hhops hlarge
    refine toToml_eq_error (Option.eq_none_iff_forall_ne_some.mpr fun text hencode => ?_)
    have hle := hwritten.mp ⟨text, hencode⟩ hops hhops
    omega

/-- A negative zero and a bound of zero are written and read as they are. -/
theorem ofToml_toToml_negativeZero :
    ReadsRecords Toml.Hollow ∧ WritesRecords ∧
    ∃ text, toToml ⟨.hopDegree, -0.0, some 0⟩ = .ok text ∧
      ofToml text = .ok ⟨.hopDegree, -0.0, some 0⟩ := by
  have hrange : ∀ hops, some 0 = some hops → hops ≤ 2 ^ 63 - 1 := by
    rintro hops ⟨⟩
    exact Nat.zero_le _
  obtain ⟨text, hwrite, hread⟩ := (ofToml_toToml Toml.native_readsRecords Toml.native_writesRecords
    ⟨.hopDegree, -0.0, some 0⟩).1 hrange
  exact ⟨Toml.native_readsRecords, Toml.native_writesRecords, text, hwrite, hread (by decide +kernel)⟩

end EliminationOrder.Config

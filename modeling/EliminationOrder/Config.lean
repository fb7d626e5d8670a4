/-
The configuration of an ordering, as a TOML document.

A configuration has three fields: the method, the decay of the hop ordering and its bound on
hops. Each has the standard value where a document leaves it out, and no other name is
tolerated, whether or not the method uses the fields. Reading and writing is done by a
library for such documents, given the description of the fields; whatever that library
refuses is no configuration. The values themselves are judged later, when a method is built,
and only as far as that method takes them.
-/
import EliminationOrder.Ordering.Appraisal
import EliminationOrder.Toml.Library

namespace EliminationOrder

/-- The configuration of an ordering. -/
structure Config where
  method : MethodKind
  decay : Float
  maxHops : Option Nat

namespace Config

/-- The configuration that an empty document gives. -/
def standard : Config :=
  { method := .exactMinimumDegree, decay := 0.5, maxHops := none }

/-- Whether two configurations are the same; decays are compared as numbers, so no NaN is equal to itself. -/
def beq (c d : Config) : Bool :=
  c.method == d.method && c.decay == d.decay && c.maxHops == d.maxHops

/-! ### Reading -/

/-- The method is given by its name. -/
def methodField : Toml.Field where
  Carrier := MethodKind
  name := "method"
  shape := .choice MethodKind.all MethodKind.name
  standard := standard.method

/-- The decay is a number. -/
def decayField : Toml.Field where
  Carrier := Float
  name := "khop_decay"
  shape := .number
  standard := standard.decay

/-- The bound on hops is a natural number or left out. -/
def maxHopsField : Toml.Field where
  Carrier := Option Nat
  name := "khop_max_hops"
  shape := .optionalNatural
  standard := standard.maxHops

/-- What a configuration looks like in a document. -/
def recordType : Toml.RecordType where
  fields := [methodField, decayField, maxHopsField]
  strict := true

/-- The configuration as a record. -/
def toRecord (c : Config) : Toml.Record recordType.fields :=
  (c.method, c.decay, c.maxHops, ())

/-- The configuration in a record. -/
def ofRecord : Toml.Record recordType.fields → Config
  | (method, decay, maxHops, ()) => { method, decay, maxHops }

variable [Toml.Library]

/-- The configuration that a text describes. -/
def ofToml (text : String) : Outcome Config :=
  match Toml.Library.decode recordType text with
  | some r => .ok (ofRecord r)
  | none => .error .config

/-! ### Files -/

/-- What became of reading a file: its bytes, or why there are none. -/
abbrev FileContent : Type :=
  Except ReadFailure ByteArray

/-- The configuration in a file. -/
def load (file : FileContent) : Outcome Config :=
  match file with
  | .ok bytes =>
    match String.fromUTF8? bytes with
    | some text => ofToml text
    | none => .error (.unreadable .notText)
  | .error cause => .error (.unreadable cause)

/-! ### Writing -/

/-- The document of a configuration. -/
def toToml (c : Config) : Outcome String :=
  match Toml.Library.encode recordType c.toRecord with
  | some text => .ok text
  | none => .error .config

/-- Whether writing a configuration and reading it again gives the same one. -/
def survivesWriting (c : Config) : Outcome Bool := do
  let text ← c.toToml
  let d ← ofToml text
  return d.beq c

/-! ### Use -/

/--
The method with the configured parameters. Only the hop ordering has any; its decay is
judged first.
-/
def build (c : Config) : Outcome Method :=
  match c.method with
  | .hopDegree => do
    let k ← HopDegree.ofDecay c.decay
    match c.maxHops with
    | some 0 => .error (.refused .zeroHops)
    | some hops => return .hopDegree (k.withMaxHops hops)
    | none => return .hopDegree k
  | kind => Method.ofKind kind none none

end Config

end EliminationOrder

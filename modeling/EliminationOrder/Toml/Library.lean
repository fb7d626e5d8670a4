/-
What the program asks of a library for TOML documents.

The program reads and writes no TOML itself. It says what its record looks like (which names
it has, what may stand under each, and what holds where a name is missing), and a library
makes a record of a document and a document of a record. How a text becomes a table, which
values fit a field and how a value is written is up to the library. What is relied on is
stated as laws where something is proved of it.
-/
import EliminationOrder.Toml.Value

namespace EliminationOrder.Toml

/-! ### Records -/

/-- What may stand in a field, by the type of what the field holds. -/
inductive Shape : Type → Type 1
  /-- One of a number of choices, each under its name. -/
  | choice {α : Type} (all : List α) (name : α → String) : Shape α
  /-- A floating-point number. -/
  | number : Shape Float
  /-- A natural number, or nothing. -/
  | optionalNatural : Shape (Option Nat)

/-- A field of a record. -/
structure Field where
  Carrier : Type
  name : String
  shape : Shape Carrier
  /-- What the field holds where its name is missing. -/
  standard : Carrier

/-- What a record looks like in a document. -/
structure RecordType where
  fields : List Field
  /-- Whether a name that no field has is refused. -/
  strict : Bool

/-- What each of the fields holds. -/
def Record : List Field → Type
  | [] => Unit
  | f :: fs => f.Carrier × Record fs

/-! ### The library -/

/-- A library for TOML documents. -/
class Library where
  /-- The table of a document, if the text is one. -/
  parse (text : String) : Option Entries
  /-- The record that a document describes, if it does. -/
  decode (S : RecordType) (text : String) : Option (Record S.fields)
  /-- A document that describes the record, if there is one. -/
  encode (S : RecordType) (r : Record S.fields) : Option String

end EliminationOrder.Toml

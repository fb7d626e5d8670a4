/-
The library for TOML documents that the program comes with.

A table is made into a record field by field: the value under the name of the field has to
fit its shape, and a name that is missing leaves the field as it is by itself. A record is
written as one line for each field that holds something.
-/
import EliminationOrder.Decimal.Text
import EliminationOrder.Toml.Document
import EliminationOrder.Toml.Library

namespace EliminationOrder.Toml

/-! ### Reading -/

/-- Whether a value has nothing in it: an empty table or an empty array. -/
def holdsNothing : Value → Bool
  | .table _ [] | .array [] => true
  | _ => false

/-- A choice: its name as a string, or as the only name in a table, with nothing in the value under it. -/
def choiceOf? {α : Type} (all : List α) (name : α → String) : Value → Option α
  | .string s => all.find? fun a => name a == s
  | .table _ [(s, v)] => if holdsNothing v then all.find? fun a => name a == s else none
  | _ => none

/-- A floating-point number: any number. -/
def numberOf? : Value → Option Float
  | .float x => some x
  | .integer n => some (Float.ofInt n)
  | _ => none

/-- A natural number: an integer that is not negative. -/
def naturalOf? : Value → Option Nat
  | .integer n => if 0 ≤ n then some n.toNat else none
  | _ => none

/-- What a value makes a field hold, if it fits. -/
def Shape.read : {α : Type} → Shape α → Value → Option α
  | _, .choice all name, v => choiceOf? all name v
  | _, .number, v => numberOf? v
  | _, .optionalNatural, v => (naturalOf? v).map some

/-- What a table makes a field hold. -/
def Field.read (f : Field) (t : Entries) : Option f.Carrier :=
  match t.lookup f.name with
  | some v => f.shape.read v
  | none => some f.standard

/-- What a table makes each of the fields hold. -/
def readFields (t : Entries) : (fs : List Field) → Option (Record fs)
  | [] => some ()
  | f :: fs => do
    let x ← f.read t
    let r ← readFields t fs
    return (x, r)

/-- The record in a table. -/
def RecordType.ofEntries? (S : RecordType) (t : Entries) : Option (Record S.fields) :=
  if S.strict && t.any fun e => !S.fields.any fun f => f.name == e.1 then none
  else readFields t S.fields

/-! ### Writing -/

/-- A line that gives a name its value. -/
def line (name : String) (value : List Char) : List Char :=
  name.toList ++ [' ', '=', ' '] ++ value ++ ['\n']

/-- The text of what a field holds; there is none where it holds nothing. -/
def Shape.write? : {α : Type} → Shape α → α → Option (List Char)
  | _, .choice _ name, a => some ('"' :: (name a).toList ++ ['"'])
  | _, .number, x => some (Decimal.write .document x)
  | _, .optionalNatural, n => n.map Decimal.numeral

/-- Whether what a field holds can be written: a natural number has to be in the range of integers. -/
def Shape.writable : {α : Type} → Shape α → α → Bool
  | _, .optionalNatural, some n => n ≤ Int64.maxValue.toInt
  | _, _, _ => true

/-- The lines of a record. -/
def writeFields : (fs : List Field) → Record fs → List Char
  | [], _ => []
  | f :: fs, (x, r) =>
    match f.shape.write? x with
    | some text => line f.name text ++ writeFields fs r
    | none => writeFields fs r

/-- Whether everything in a record can be written. -/
def writableFields : (fs : List Field) → Record fs → Bool
  | [], _ => true
  | f :: fs, (x, r) => f.shape.writable x && writableFields fs r

/-- The library. -/
instance native : Library where
  parse := read
  decode S text := (read text).bind S.ofEntries?
  encode S r := if writableFields S.fields r then some (String.ofList (writeFields S.fields r)) else none

end EliminationOrder.Toml

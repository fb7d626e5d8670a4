/-
The values of a TOML document, and tables that are filled step by step.

A document is a table: a list of names and values, no name twice. A table can be
written in four ways, and which of them it was decides what may still be added to it
from elsewhere in the document: a table named in a header or standing inside braces is
complete, one that only occurs on the way to a deeper header can still be named itself,
and one that a dotted key made can only grow by dotted keys and deeper headers.
-/

namespace EliminationOrder.Toml

/-- How a table came about. -/
inductive TableForm
  /-- Named in a header. -/
  | header
  /-- On the way to a table named in a header. -/
  | implied
  /-- On the way of a dotted key. -/
  | dotted
  /-- Written in braces. -/
  | inline
deriving DecidableEq, Repr

/-- A TOML value. -/
inductive Value
  | string (text : String)
  | integer (n : Int)
  | float (x : Float)
  | boolean (b : Bool)
  /-- A date, a time of day or both. -/
  | moment (text : String)
  | array (items : List Value)
  | table (form : TableForm) (entries : List (String × Value))
  /-- Tables that share a header in double brackets, the latest first. -/
  | tables (latest : List (String × Value)) (earlier : List (List (String × Value)))

/-- The names and values of a table. -/
abbrev Entries : Type :=
  List (String × Value)

namespace Entries

/-- Changes the value under a name, or adds one under a new name. -/
def alter (name : String) (change : Option Value → Option Value) : Entries → Option Entries
  | [] => do
    let v ← change none
    return [(name, v)]
  | (n, v) :: es =>
    if n = name then do
      let v ← change (some v)
      return (n, v) :: es
    else do
      let es ← alter name change es
      return (n, v) :: es

/-- Adds a value under a name that is not in use. -/
def add (name : String) (v : Value) (es : Entries) : Option Entries :=
  es.alter name fun
    | none => some v
    | some _ => none

/--
Adds a value at the end of a dotted key. The tables on the way are made where they are
missing; the last of them has to be one that a dotted key made.
-/
def addDotted (name : String) (v : Value) : List String → Entries → Option Entries
  | [], es => es.add name v
  | k :: path, es => es.alter k fun
    | none => do
      let inner ← addDotted name v path []
      return .table .dotted inner
    | some (.table .dotted inner) => do
      let inner ← addDotted name v path inner
      return .table .dotted inner
    | some (.table .implied inner) =>
      if path.isEmpty then none
      else do
        let inner ← addDotted name v path inner
        return .table .implied inner
    | some (.tables latest earlier) =>
      if path.isEmpty then none
      else do
        let latest ← addDotted name v path latest
        return .tables latest earlier
    | some _ => none

/--
Changes the table at the end of a header's path. The tables on the way are made where
they are missing; of tables that share a header the latest is meant.
-/
def alterAt (change : Entries → Option Entries) : List String → Entries → Option Entries
  | [], es => change es
  | k :: path, es => es.alter k fun
    | none => do
      let inner ← alterAt change path []
      return .table .implied inner
    | some (.table .inline _) => none
    | some (.table form inner) => do
      let inner ← alterAt change path inner
      return .table form inner
    | some (.tables latest earlier) => do
      let latest ← alterAt change path latest
      return .tables latest earlier
    | some _ => none

/-- Opens the table named in a header: a new one, or one that was only implied so far. -/
def openTable (name : String) (es : Entries) : Option Entries :=
  es.alter name fun
    | none => some (.table .header [])
    | some (.table .implied inner) => some (.table .header inner)
    | some _ => none

/-- Opens one more of the tables that share a header in double brackets. -/
def openElement (name : String) (es : Entries) : Option Entries :=
  es.alter name fun
    | none => some (.tables [] [])
    | some (.tables latest earlier) => some (.tables [] (latest :: earlier))
    | some _ => none

end Entries

end EliminationOrder.Toml

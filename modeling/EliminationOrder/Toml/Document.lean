/-
TOML documents.

A document is read in two steps: its lines become statements, each of which assigns a
value to a key or opens a table, and the statements fill one table from the root. A
text that breaks a rule in either step is no document.
-/
import EliminationOrder.Toml.Scalar

namespace EliminationOrder.Toml

/-! ### Values

Arrays and tables in braces hold values again. Each call lowers the bound; with twice
the length of the text to begin with it never runs out, since of two nested calls one
takes a character.
-/

mutual

/-- Reads a value. -/
def readValue : Nat → List Char → Option (Value × List Char)
  | 0, _ => none
  | bound + 1, s =>
    match s with
    | '[' :: cs => do
      let (items, rest) ← readItems bound cs
      return (.array items, rest)
    | '{' :: cs =>
      match skipBlanks cs with
      | '}' :: rest => some (.table .inline [], rest)
      | cs => do
        let (entries, rest) ← readInline bound [] cs
        return (.table .inline entries, rest)
    | '"' :: _ | '\'' :: _ => do
      let (text, rest) ← readString s
      return (.string text, rest)
    | s => readScalar s

/-- Reads the items of an array, as far as its closing bracket. -/
def readItems : Nat → List Char → Option (List Value × List Char)
  | 0, _ => none
  | bound + 1, s => do
    match ← skipTrivia false s with
    | ']' :: rest => return ([], rest)
    | s =>
      let (v, s) ← readValue bound s
      match ← skipTrivia false s with
      | ']' :: rest => return ([v], rest)
      | ',' :: s =>
        let (vs, rest) ← readItems bound s
        return (v :: vs, rest)
      | _ => none

/-- Reads the assignments in braces into a table, as far as the closing brace. -/
def readInline : Nat → Entries → List Char → Option (Entries × List Char)
  | 0, _, _ => none
  | bound + 1, entries, s => do
    let (key, s) ← readKey s.length s
    match s with
    | '=' :: s =>
      let (v, s) ← readValue bound (skipBlanks s)
      let entries ← entries.addDotted key.name v key.path
      match skipBlanks s with
      | '}' :: rest => return (entries, rest)
      | ',' :: s => readInline bound entries (skipBlanks s)
      | _ => none
    | _ => none

end

/-! ### Statements -/

/-- What one line of a document says. -/
inductive Statement
  | assign (key : Key) (value : Value)
  /-- A header: assignments from here on go into this table. -/
  | table (key : Key)
  /-- A header in double brackets: assignments from here on go into one more table of this name. -/
  | element (key : Key)

/-- Reads the statement that begins here. -/
def readStatement (s : List Char) : Option (Statement × List Char) :=
  match s with
  | '[' :: '[' :: cs => do
    let (key, s) ← readKey cs.length (skipBlanks cs)
    match s with
    | ']' :: ']' :: rest => return (.element key, rest)
    | _ => none
  | '[' :: cs => do
    let (key, s) ← readKey cs.length (skipBlanks cs)
    match s with
    | ']' :: rest => return (.table key, rest)
    | _ => none
  | s => do
    let (key, s) ← readKey s.length s
    match s with
    | '=' :: cs =>
      let (v, rest) ← readValue (2 * cs.length + 1) (skipBlanks cs)
      return (.assign key v, rest)
    | _ => none

/-- Reads all statements; every line holds at most one. -/
def readStatements : Nat → List Char → Option (List Statement)
  | 0, _ => none
  | bound + 1, s =>
    match skipBlanks s with
    | [] => some []
    | '\n' :: cs => readStatements bound cs
    | '#' :: cs => do
      let rest ← finishLine ('#' :: cs)
      readStatements bound rest
    | s => do
      let (statement, rest) ← readStatement s
      let rest ← finishLine rest
      let statements ← readStatements bound rest
      return statement :: statements

/-! ### The table of a document -/

/-- Carries out statements, with assignments going into the table at `here`. -/
def build (here : List String) (root : Entries) : List Statement → Option Entries
  | [] => some root
  | .assign key v :: rest => do
    let root ← root.alterAt (Entries.addDotted key.name v key.path) here
    build here root rest
  | .table key :: rest => do
    let root ← root.alterAt (Entries.openTable key.name) key.path
    build (key.path ++ [key.name]) root rest
  | .element key :: rest => do
    let root ← root.alterAt (Entries.openElement key.name) key.path
    build (key.path ++ [key.name]) root rest

/-- Drops the byte order mark that a text may begin with. -/
def skipMark : List Char → List Char
  | '\uFEFF' :: cs => cs
  | cs => cs

/-- The table of a document. -/
def read (text : String) : Option Entries := do
  let chars := unifyLineBreaks (skipMark text.toList)
  let statements ← readStatements (chars.length + 1) chars
  build [] [] statements

end EliminationOrder.Toml

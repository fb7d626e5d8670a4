/-
Characters, blanks and strings of TOML.

A reader takes characters from the front of a list and gives what it read and the rest;
it gives nothing where the text does not have the form it reads. Line breaks are single
characters here: the two-character form is replaced before anything is read, and a
carriage return that stands alone belongs to no class.
-/
import EliminationOrder.Decimal.Digits

namespace EliminationOrder.Toml

/-! ### Characters -/

/-- Writes every line break as one character. -/
def unifyLineBreaks : List Char → List Char
  | '\r' :: '\n' :: cs => '\n' :: unifyLineBreaks cs
  | c :: cs => c :: unifyLineBreaks cs
  | [] => []

/-- Spaces and tabs. -/
def isBlank (c : Char) : Bool :=
  c == ' ' || c == '\t'

/-- What a comment and a literal string may hold: no control characters but the tab. -/
def isPlain (c : Char) : Bool :=
  c == '\t' || (' ' ≤ c && c != '\x7f')

/-- What a name without quotes may hold. -/
def isBare (c : Char) : Bool :=
  c.isAlphanum || c == '_' || c == '-'

/-! ### Blanks and comments -/

/-- Drops spaces and tabs from the front. -/
def skipBlanks (s : List Char) : List Char :=
  s.dropWhile isBlank

/-- Drops spaces, tabs, line breaks and comments from the front; `inComment` tells where it begins. -/
def skipTrivia (inComment : Bool) : List Char → Option (List Char)
  | [] => some []
  | c :: cs =>
    if c = '\n' then skipTrivia false cs
    else if inComment then
      if isPlain c then skipTrivia true cs else none
    else if isBlank c then skipTrivia false cs
    else if c = '#' then skipTrivia true cs
    else some (c :: cs)

/-- Drops what may follow on a line: blanks, a comment and the line break, or the end of the text. -/
def finishLine (s : List Char) : Option (List Char) :=
  let s := match skipBlanks s with
    | '#' :: cs => cs.dropWhile isPlain
    | s => s
  match s with
  | [] => some []
  | '\n' :: cs => some cs
  | _ => none

/-! ### Escapes -/

/-- The number that hexadecimal digits write, if all are such digits. -/
def hexNumber? (s : List Char) : Option Nat :=
  if s.all fun c => (Decimal.digitValue? c).isSome then some (Decimal.number 16 s) else none

/-- The character with the given code; surrogates and codes past the last one have none. -/
def character? (code : Nat) : Option Char :=
  if code.isValidChar then some (Char.ofNat code) else none

/-- Reads what follows the backslash of an escape. -/
def readEscape : List Char → Option (Char × List Char)
  | 'b' :: cs => some ('\x08', cs)
  | 't' :: cs => some ('\t', cs)
  | 'n' :: cs => some ('\n', cs)
  | 'f' :: cs => some ('\x0c', cs)
  | 'r' :: cs => some ('\r', cs)
  | '"' :: cs => some ('"', cs)
  | '\\' :: cs => some ('\\', cs)
  | 'u' :: cs => readCode 4 cs
  | 'U' :: cs => readCode 8 cs
  | _ => none
where
  /-- Reads the given number of hexadecimal digits as the code of a character. -/
  readCode (count : Nat) (cs : List Char) : Option (Char × List Char) := do
    if cs.length < count then none
    else
      let code ← hexNumber? (cs.take count)
      let c ← character? code
      return (c, cs.drop count)

/-! ### Strings

Each of these begins after the opening quotes. The bound on the recursion is the length
of the text, which every step shortens.
-/

/-- Reads a string in double quotes as far as its closing quote. -/
def readBasic : Nat → List Char → Option (List Char × List Char)
  | bound + 1, c :: cs =>
    if c = '"' then some ([], cs)
    else if c = '\\' then do
      let (e, cs) ← readEscape cs
      let (rest, cs) ← readBasic bound cs
      return (e :: rest, cs)
    else if isPlain c then do
      let (rest, cs) ← readBasic bound cs
      return (c :: rest, cs)
    else none
  | _, _ => none

/-- Reads a string in single quotes as far as its closing quote. -/
def readLiteral : List Char → Option (List Char × List Char)
  | [] => none
  | c :: cs =>
    if c = '\'' then some ([], cs)
    else if isPlain c then do
      let (rest, cs) ← readLiteral cs
      return (c :: rest, cs)
    else none

/--
The end of a string in triple quotes: three quotes, with up to two more before them
that belong to the string.
-/
def readClosing (quote : Char) (s : List Char) : Option (List Char × List Char) :=
  let run := (s.takeWhile (· == quote)).length
  if run < 3 then none
  else some (List.replicate (min run 5 - 3) quote, s.drop (min run 5))

/-- Drops the line break and all blanks that a backslash at the end of a line stands for. -/
def readFold (s : List Char) : Option (List Char) :=
  match skipBlanks s with
  | '\n' :: cs => some (cs.dropWhile fun c => isBlank c || c == '\n')
  | _ => none

/-- Reads a string in triple double quotes as far as its closing quotes. -/
def readMultilineBasic : Nat → List Char → Option (List Char × List Char)
  | bound + 1, c :: cs =>
    match readClosing '"' (c :: cs) with
    | some closed => some closed
    | none =>
      if c = '\\' then
        match readFold cs with
        | some cs => readMultilineBasic bound cs
        | none => do
          let (e, cs) ← readEscape cs
          let (rest, cs) ← readMultilineBasic bound cs
          return (e :: rest, cs)
      else if isPlain c || c == '\n' then do
        let (rest, cs) ← readMultilineBasic bound cs
        return (c :: rest, cs)
      else none
  | _, _ => none

/-- Reads a string in triple single quotes as far as its closing quotes. -/
def readMultilineLiteral : List Char → Option (List Char × List Char)
  | [] => none
  | c :: cs =>
    match readClosing '\'' (c :: cs) with
    | some closed => some closed
    | none =>
      if isPlain c || c == '\n' then do
        let (rest, cs) ← readMultilineLiteral cs
        return (c :: rest, cs)
      else none

/-- Drops a line break that follows opening triple quotes at once. -/
def skipFirstBreak : List Char → List Char
  | '\n' :: cs => cs
  | cs => cs

/-- Reads a string of any of the four kinds. -/
def readString (s : List Char) : Option (String × List Char) :=
  let chars := match s with
    | '"' :: '"' :: '"' :: cs => readMultilineBasic (cs.length + 1) (skipFirstBreak cs)
    | '\'' :: '\'' :: '\'' :: cs => readMultilineLiteral (skipFirstBreak cs)
    | '"' :: cs => readBasic (cs.length + 1) cs
    | '\'' :: cs => readLiteral cs
    | _ => none
  chars.map fun (cs, rest) => (String.ofList cs, rest)

/-! ### Names -/

/-- Reads one part of a key: a bare name, or a string in single or double quotes. -/
def readName (s : List Char) : Option (String × List Char) :=
  match s with
  | '"' :: cs => (readBasic (cs.length + 1) cs).map fun (cs, rest) => (String.ofList cs, rest)
  | '\'' :: cs => (readLiteral cs).map fun (cs, rest) => (String.ofList cs, rest)
  | s =>
    let name := s.takeWhile isBare
    if name.isEmpty then none else some (String.ofList name, s.dropWhile isBare)

/-- A key: the names on the way, and the last one. -/
structure Key where
  path : List String
  name : String

/-- Reads a key, its names separated by points, and the blanks after it. -/
def readKey : Nat → List Char → Option (Key × List Char)
  | bound + 1, s => do
    let (name, s) ← readName s
    match skipBlanks s with
    | '.' :: cs =>
      let (key, s) ← readKey bound (skipBlanks cs)
      return (⟨name :: key.path, key.name⟩, s)
    | s => return (⟨[], name⟩, s)
  | 0, _ => none

end EliminationOrder.Toml

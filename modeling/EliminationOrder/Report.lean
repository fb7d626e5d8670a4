/-
The two reports that the command line prints.

One orders a grid of six by six points by a configured method and shows the order, its
inverse and its fill. The other compares the fill of all methods, and of the natural
order, on a grid or a random graph of a given extent. A report is what is printed on
either channel and how the program ends; nothing is printed here.
-/
import EliminationOrder.Config
import EliminationOrder.Gallery
import EliminationOrder.Message
import EliminationOrder.Toml.Native

namespace EliminationOrder

/-- What a report prints, and the code it ends with. -/
structure Report where
  code : Nat
  out : List String
  err : List String

namespace Report

/-- A report of what went well. -/
def success (out : List String) : Report :=
  { code := 0, out, err := [] }

/-- A report that only says what went wrong. -/
def failure (message : String) : Report :=
  { code := 1, out := [], err := [message] }

/-- A report of a call outside its domain. -/
def fault (message : String) : Report :=
  { code := 101, out := [], err := [message] }

/-! ### One configured method -/

/-- A list of numbers in brackets. -/
def bracketed (ns : List Nat) : String :=
  "[" ++ ", ".intercalate (ns.map toString) ++ "]"

/-- The lines about an ordering: the order, its inverse, and its fill if it has one. -/
def appraisalLines (method : Method) (result : Appraisal) : List String :=
  [method.kind.name ++ ": " ++ bracketed result.order, "inverse: " ++ bracketed result.inverse] ++
    match result.fill with
    | .ok fill => ["fill-in: " ++ toString fill]
    | .error _ => []

/-- Orders a grid of six by six points by a configured method. -/
def ofConfig (config : Outcome Config) : Report :=
  match config.bind Config.build with
  | .error e => failure ("bad config: " ++ e.message)
  | .ok method =>
    match (Gallery.gridLaplacian (α := Float) 6 6).bind fun a => method.appraise (.sparse a) with
    | .ok result => success (appraisalLines method result)
    | .error e => { code := 0, out := [], err := [method.kind.name ++ ": " ++ e.message] }

/-- Orders the grid as a file configures it. -/
def ofFile (file : Config.FileContent) : Report :=
  ofConfig (Config.load file)

/-! ### A comparison of all methods -/

/-- A text with blanks in front up to the given width. -/
def padLeft (width : Nat) (text : String) : String :=
  String.ofList (List.replicate (width - text.length) ' ') ++ text

/-- The line about the fill of an ordering. -/
def fillLine (name : String) (fill : Nat) : String :=
  padLeft 24 name ++ " fill-in " ++ padLeft 8 (toString fill)

/-- The methods of a comparison, in the order in which they are listed. -/
def methods : List Method :=
  [.exactMinimumDegree, .greedyMinimumFill, .approximateFill, .greedyRow, .hopDegree .standard]

/-- The orderings of a comparison: the natural one, and that of each method. -/
def contestants (a : StoredMatrix Float) : List (String × Outcome Nat) :=
  ("natural", fillIn a (List.range a.nrows)) ::
    methods.map fun method => (method.kind.name, (method.order a).bind (fillIn a))

/-- The matrix of a comparison: a square grid, or a random graph with about two edges a node. -/
def comparedMatrix (kind : String) (extent : Nat) : Outcome (SparseMatrix Float) :=
  if kind = "grid" then Gallery.gridLaplacian extent extent
  else
    let n := Float.ofNat extent
    Gallery.random extent (4.0 / (if n < 4.0 then 4.0 else n)) 42

/-- Compares the fill of all methods on a matrix. -/
def ofMatrix (a : SparseMatrix Float) : Report :=
  let results := contestants (.sparse a)
  { code := 0
    out :=
      (toString a.nrows ++ " variables, " ++ toString a.storedCount ++ " nonzeros") ::
        results.filterMap fun (name, fill) =>
          match fill with
          | .ok fill => some (fillLine name fill)
          | .error _ => none
    err := results.filterMap fun (name, fill) =>
      match fill with
      | .ok _ => none
      | .error e => some (name ++ ": " ++ e.message) }

/-- An extent: a positive number of 64 bits in decimal digits, with or without a plus sign. -/
def extent? (text : String) : Option Nat :=
  let ds := match text.toList with
    | '+' :: ds => ds
    | ds => ds
  let n := Decimal.number 10 ds
  if !ds.isEmpty && ds.all Decimal.isDigit && 0 < n && n < UInt64.size then some n else none

/-- The comparison that the arguments of the command line ask for. -/
def ofArguments : List String → Report
  | kind :: extent :: _ =>
    match extent? extent with
    | none => failure "extent must be a positive integer"
    | some n =>
      match comparedMatrix kind n with
      | .ok a => ofMatrix a
      | .error e => fault e.message
  | _ => failure "usage: compare_orderings (grid|random) extent"

end Report

end EliminationOrder

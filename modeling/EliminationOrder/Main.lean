/-
The command line.

`order [FILE]` orders a grid by the method that a file configures, and
`compare KIND EXTENT` compares all methods. Files are read and lines are printed here;
what the lines say is decided elsewhere.
-/
import EliminationOrder.Report

namespace EliminationOrder.CommandLine

/-- The content of a file, or why there is none. -/
def readContent (path : String) : IO Config.FileContent := do
  try
    let bytes ← IO.FS.readBinFile path
    return .ok bytes
  catch
    | .noFileOrDirectory .. => return .error .notFound
    | _ => return .error .other

/-- Prints a report and gives its code. -/
def printReport (report : Report) : IO UInt32 := do
  for line in report.out do
    IO.println line
  for line in report.err do
    IO.eprintln line
  return report.code.toUInt32

/-- Carries out a command. -/
def run : List String → IO UInt32
  | "order" :: path :: _ => do
    let content ← readContent path
    printReport (Report.ofFile content)
  | ["order"] => printReport (Report.ofConfig (.ok Config.standard))
  | "compare" :: arguments => printReport (Report.ofArguments arguments)
  | _ => do
    IO.eprintln "usage: (order [file] | compare (grid|random) extent)"
    return 1

end EliminationOrder.CommandLine

/-- The program: carries out the command that its arguments name. -/
def main (arguments : List String) : IO UInt32 :=
  EliminationOrder.CommandLine.run arguments

import CaretAutomata.CommandLine.Arguments
import CaretAutomata.CommandLine.Style
import CaretAutomata.Report

/-! # What the command line prints

A command prints its result, or the message that says why the pattern is refused and ends with
code 1. What the parser of options answers by itself is printed as it is: help, the version, and the
refusal of a command line, with the codes that go with them.

Three things are left out. A run that is told to keep a log writes it among its messages: an entry
for the pattern that `translate` is given, and those of `Journal` behind it. Here nothing is logged.
The text of the help is the parser's own. And with a high limit on the depth a run can use up the
stack of its machine and end there, where here it reads on. -/

namespace CaretAutomata.CommandLine

open Pattern (Fault Limits)

/-- Lines, each with its end. -/
def unlines (lines : List String) : String := String.join (lines.map (· ++ "\n"))

def success (lines : List String) : Output := ⟨0, unlines lines, ""⟩

section Printing

variable (paint : Painter)

/-- A run that fails after it printed some lines. -/
def failure (lines : List String) (fault : Fault) : Output :=
  ⟨1, unlines lines, unlines [paint .boldRed "Error:" ++ " " ++ fault.message]⟩

/-- Prints lines made of a result, or the fault in its place. -/
def answer {α : Type} (lines : α → List String) : Except Fault α → Output
  | .ok value => success (lines value)
  | .error fault => failure paint [] fault

/-- The table and the flowchart under their headings. -/
def renderingLines (t : Rendering) : List String :=
  [paint .bold "Transition table:",
    t.table,
    "",
    paint .bold "Diagram:",
    paint .green t.flowchart]

/-- What stands above the tree of a pattern. -/
def parseHeading (pattern : String) : List String :=
  [paint .bold "Parsing pattern...",
    "  Input: " ++ paint .cyan pattern,
    ""]

/-- The tree of a pattern in full, as a pattern, and its size. -/
def extentLines (e : Extent) : List String :=
  [paint .bold "Extents:",
    "  " ++ e.inspectInFull,
    "",
    "  Notation: " ++ paint .green e.toPattern,
    "  Leaves:   " ++ paint .yellow (toString e.leafCount) ++
      " (depth " ++ toString e.depth ++ ")"]

def Request.run (r : Request) : Output :=
  match r.command with
  | .render false => answer paint (renderingLines paint) (render r.limits r.pattern)
  | .render true => answer paint Report.lines (Report.ofPattern r.limits r.pattern)
  | .table => answer paint (fun t => [t.table]) (render r.limits r.pattern)
  | .flowchart => answer paint (fun t => [t.flowchart]) (render r.limits r.pattern)
  | .parse =>
    let heading := parseHeading paint r.pattern
    match Pattern.parse r.limits r.pattern with
    | .ok e => success (heading ++ extentLines paint e)
    | .error fault => failure paint heading fault

/-- Reads the arguments, and does what they ask for. -/
def run (parser : ArgumentParser) (arguments : List String) : Output :=
  match parser arguments with
  | .ok request => request.run paint
  | .error output => output

end Printing

end CaretAutomata.CommandLine

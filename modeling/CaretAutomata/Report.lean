import CaretAutomata.Extent.Inspection
import CaretAutomata.Rendering

/-! # The report on a pattern

Everything that is known of a pattern at the end: the pattern as it was given and as it was read,
its tree, the number of its states, and its table and flowchart. -/

namespace CaretAutomata

open Pattern (Fault Limits collapse parse)

/-- A rendering with what led to it. -/
structure Report where
  input : String
  normalized : String
  extent : String
  stateCount : Nat
  rendering : Rendering
  deriving DecidableEq, Repr, Inhabited

namespace Report

/-- Reads, wires and classifies a pattern by itself, for the tree and the automaton. The empty pattern
has no tree. -/
def ofPattern (limits : Limits) (pattern : String) : Except Fault Report := do
  let (extent, automaton) ←
    if pattern.isEmpty then pure ("<empty>", Automaton.single)
    else do
      let e ← parse limits pattern
      let automaton := (Automaton.ofExtent e).classify
      pure (e.inspect, automaton)
  return {
    input := pattern
    normalized := String.ofList (collapse pattern.toList)
    extent
    stateCount := automaton.size
    rendering := .ofAutomaton automaton }

def lines (r : Report) : List String :=
  ["Translation Report",
    "==================",
    "Input:      " ++ r.input,
    "Normalized: " ++ r.normalized,
    "Extents:    " ++ r.extent,
    "States:     " ++ toString r.stateCount,
    "",
    r.rendering.table,
    "",
    r.rendering.flowchart]

end Report

end CaretAutomata

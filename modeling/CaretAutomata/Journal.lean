import CaretAutomata.Rendering

/-! # What happens on the way

The journal of a pattern tells, in order, what was done with it: which parts were read, which states
were made for its characters, which states the finished automaton ends in and how many of its states
accept, or why the pattern was refused. -/

namespace CaretAutomata

open Pattern (Fault Limits Visit collapse parse visits)

namespace Journal

inductive Level where
  | trace
  | debug
  | warning
  deriving DecidableEq, Repr

/-- The part of the work that an entry tells of. -/
inductive Stage where
  | rendering
  | reading
  | wiring
  | classifying
  deriving DecidableEq, Repr

structure Entry where
  level : Level
  stage : Stage
  message : String
  deriving DecidableEq, Repr

/-- A stretch of the pattern is read. -/
def ofVisit (visit : Visit) : Entry :=
  let stretch := visit.stretch
  ⟨.trace, .reading, "span " ++ toString stretch.start ++ ".." ++ toString stretch.stop ++ " `" ++
    stretch.fragment ++ "` at depth " ++ toString visit.depth⟩

/-- A pattern is read. Nothing is told of one that is too long or empty. -/
def ofReading (limits : Limits) (pattern : String) : List Entry :=
  if limits.maxLength < pattern.length || pattern.isEmpty then []
  else
    let normalized := String.ofList (collapse pattern.toList)
    ⟨.debug, .reading, "parsing pattern `" ++ normalized ++ "`"⟩ ::
      (visits limits.maxDepth limits.maxDepth (.ofText pattern.toList)).map ofVisit

/-- A tree is wired: every leaf gets a state, then the edges are added. -/
def ofWiring (e : Extent) : List Entry :=
  let states := (List.range e.leafCount).map fun i =>
    (⟨.trace, .wiring, "allocated state " ++ defaultLabel (i + 1)⟩ : Entry)
  let exits := "\x7b" ++ ", ".intercalate (e.wiring.exits.map toString) ++ "\x7d"
  states ++ [⟨.debug, .wiring,
    "built automaton with " ++ toString (e.leafCount + 1) ++ " states, exits " ++ exits⟩]

/-- The accepting states of an automaton are marked. -/
def ofClassifying (a : Automaton) : Entry :=
  ⟨.debug, .classifying, "classified " ++ toString (a.states.countP State.accepting) ++ " of " ++
    toString a.size ++ " states as accepting"⟩

def ofFault (pattern : String) (fault : Fault) : Entry :=
  ⟨.warning, .rendering, "could not translate `" ++ pattern ++ "`: " ++ fault.message⟩

/-- The journal of `renderOrDiagnose`. -/
def ofRendering (limits : Limits) (pattern : String) : List Entry :=
  if pattern.isEmpty then
    [⟨.debug, .rendering, "empty pattern, returning trivial automaton"⟩]
  else
    ofReading limits pattern ++
      match parse limits pattern with
      | .ok e => ofWiring e ++ [ofClassifying e.compile]
      | .error fault => [ofFault pattern fault]

end Journal

end CaretAutomata

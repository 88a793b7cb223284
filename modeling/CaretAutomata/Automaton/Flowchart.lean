import CaretAutomata.Automaton.Reachability

/-! # The flowchart

The automaton as text for the Mermaid diagram tool. Every edge has a line of its own, from a
round node to a round node; a state without any edge to or from it is drawn as a node alone. -/

namespace CaretAutomata.Automaton

def flowchartHeader : String := "flowchart LR"

/-- The round node of a state. -/
def flowchartNode (name : String) : String := name ++ "((" ++ name ++ "))"

def flowchartEdges? (nodes : Array String) (source : String) (entry : Symbol × List StateId) :
    Option (List String) :=
  let start := "\t" ++ source ++ " -->|" ++ entry.1.text ++ "| "
  entry.2.mapM fun target => nodes[target]?.map (start ++ ·)

def flowchartLines? (nodes : Array String) (s : State) : Option (List String) := do
  let lines ← s.transitions.mapM (flowchartEdges? nodes (flowchartNode s.name))
  return lines.flatten

/-- The states that no edge leaves or enters. -/
def isolated? (a : Automaton) : Option (List State) := do
  let targeted ← a.targeted? fun _ => true
  return a.states.toList.zipIdx.filterMap fun (s, id) =>
    if s.hasTransitions || targeted.getD id false then none else some s

/-- The flowchart. There is none if a target does not exist. -/
def flowchart? (a : Automaton) : Option String := do
  let nodes := a.states.map fun s => flowchartNode s.name
  let edges ← a.states.toList.mapM (flowchartLines? nodes)
  let isolated ← a.isolated?
  let alone := isolated.map fun s => "\t" ++ flowchartNode s.name
  return "\n".intercalate (flowchartHeader :: (edges.flatten ++ alone))

end CaretAutomata.Automaton

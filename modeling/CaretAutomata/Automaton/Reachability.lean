import CaretAutomata.Automaton.Basic
import CaretAutomata.Graph.Components
import CaretAutomata.Graph.Reachable

/-! # What states can reach

The automaton as a graph: its states, and its edges whatever they consume. A query that comes to an
edge whose target does not exist has no answer. -/

namespace CaretAutomata.Automaton

/-- The states and edges, without the symbols. -/
def graph (a : Automaton) : Graph := ⟨a.states.map State.successors⟩

/-- The states that can be reached from a state, itself included, in ascending order. -/
def reachable? (a : Automaton) (id : StateId) : Option (List StateId) := a.graph.reachable? id

def reachableSets? (a : Automaton) : Option (List (List StateId)) :=
  let graph := a.graph
  (List.range a.size).mapM graph.reachable?

/-- The number of the component of every state; numbers never rise along an edge. -/
def componentNumbers? (a : Automaton) : Option (Array Nat) := a.graph.componentNumbers?

/-- The targets of all edges whose symbol is kept, with repetitions. -/
def targetsOn (a : Automaton) (keep : Symbol → Bool) : List StateId :=
  a.states.toList.flatMap fun s =>
    s.transitions.flatMap fun (symbol, targets) => if keep symbol then targets else []

def flag? (flags : Array Bool) (id : StateId) : Option (Array Bool) :=
  if id < flags.size then some (flags.setIfInBounds id true) else none

/-- Whether an edge whose symbol is kept leads to a state, for every state. -/
def targeted? (a : Automaton) (keep : Symbol → Bool) : Option (Array Bool) :=
  (a.targetsOn keep).foldlM flag? (.replicate a.size false)

def epsilonTargets? (a : Automaton) : Option (Array Bool) := a.targeted? (· == .epsilon)

end CaretAutomata.Automaton

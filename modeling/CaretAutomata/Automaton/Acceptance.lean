import CaretAutomata.Automaton.Edit
import CaretAutomata.Automaton.Reachability

/-! # Which states accept

Acceptance is found from the finished automaton. A state accepts if

* no edge leaves it, or
* all its edges lead back to itself, or
* it is the target of an edge that consumes nothing, and no edge leaves its component: from every
  state that it reaches, it can be reached again.

The last rule fits the way repetitions are wired: the end of a repeated part leads back to its entry
without consuming anything. The marks are written in place, one by one, when all of them are
known. -/

namespace CaretAutomata.Automaton

/-- One of the three rules holds for the state at `id`. -/
def accepts? (component : Array Nat) (closed epsilonTargets : Array Bool) (id : StateId)
    (s : State) : Option Bool := do
  if !s.hasTransitions then return true
  if s.successors.all (· == id) then return true
  if ← epsilonTargets[id]? then closed[← component[id]?]? else return false

/-- Which states accept, for every state. There is no answer if an edge leads to a state that does
not exist. -/
def marks? (a : Automaton) : Option (List Bool) := do
  let component ← a.componentNumbers?
  let closed ← a.graph.closedComponents? component
  let epsilonTargets ← a.epsilonTargets?
  a.states.toList.zipIdx.mapM fun (s, id) => accepts? component closed epsilonTargets id s

/-- What works on an automaton in place. It may fail on its way, and what it wrote until then
stays. -/
abbrev InPlace := OptionT (StateM Automaton)

/-- Writes the mark of the state at `id`. -/
def setMark (id : StateId) (accepting : Bool) : InPlace Unit :=
  modify fun a => ⟨a.states.modify id (·.mark accepting)⟩

/-- Marks the accepting states, and unmarks all others. -/
def markAccepting : InPlace Unit := do
  let a ← get
  let marks ← a.marks?.getM
  marks.zipIdx.forM fun (accepting, id) => setMark id accepting

/-- The automaton that `markAccepting` leaves, whether it fails or not. -/
def classify (a : Automaton) : Automaton := (markAccepting.run a).2

/-- The automaton with its accepting states marked, if `markAccepting` does not fail. -/
def classify? (a : Automaton) : Option Automaton :=
  let (done, b) := markAccepting.run a
  done.map fun _ => b

end CaretAutomata.Automaton

import CaretAutomata.Automaton.Basic

/-! # Changing an automaton by hand

An edit of a state that does not exist has no result. Edges may lead to states that do not
exist. -/

namespace CaretAutomata

namespace State

/-- Makes sure that there is an entry for a symbol, and changes its targets by `f`. A new entry
comes last. -/
def alterTargets (s : State) (symbol : Symbol) (f : List StateId → List StateId) : State :=
  { s with transitions := go s.transitions }
where
  go : List (Symbol × List StateId) → List (Symbol × List StateId)
    | [] => [(symbol, f [])]
    | (other, targets) :: rest =>
      if other = symbol then (symbol, f targets) :: rest else (other, targets) :: go rest

/-- Adds a target on a symbol, behind those that are there. -/
def connect (s : State) (symbol : Symbol) (target : StateId) : State :=
  s.alterTargets symbol fun targets => if target ∈ targets then targets else targets ++ [target]

/-- Makes sure that there is an entry for a symbol. -/
def touch (s : State) (symbol : Symbol) : State := s.alterTargets symbol id

def clear (s : State) : State := { s with transitions := [] }

def mark (s : State) (accepting : Bool) : State := { s with accepting }

end State

namespace Automaton

def edit? (a : Automaton) (id : StateId) (f : State → State) : Option Automaton :=
  if id < a.size then some ⟨a.states.modify id f⟩ else none

def duplicate? (a : Automaton) (id : StateId) : Option Automaton :=
  a.states[id]?.map fun s => ⟨a.states.push s⟩

/-- Keeps the first `count` states. Transitions of those to the others stay. -/
def truncate (a : Automaton) (count : Nat) : Automaton := ⟨a.states.take count⟩

def targets? (a : Automaton) (id : StateId) (symbol : Symbol) : Option (List StateId) :=
  a.states[id]?.map (·.targets symbol)

def edgesOf? (a : Automaton) (id : StateId) : Option (List (Symbol × StateId)) :=
  a.states[id]?.map State.edges

end Automaton

end CaretAutomata

import CaretAutomata.Arrival

/-! # Automata

A state has a label, a mark for acceptance, and its transitions: for every symbol the states it
leads to, symbols and targets in the order in which they were added. States are known by their
positions. Nothing forces a target to exist, since states can be cut off while transitions to them
stay; a query that looks at a missing state has no answer. -/

namespace CaretAutomata

/-- What a transition consumes: a character, or nothing. -/
inductive Symbol where
  | char (c : Char)
  | epsilon
  deriving DecidableEq, Repr, Inhabited

namespace Symbol

instance : Hashable Symbol where
  hash
    | char c => hash c.toNat
    | epsilon => hash ()

/-- The text of a symbol. The character `ε` and the symbol that consumes nothing look alike. -/
def text : Symbol → String
  | char c => c.toString
  | epsilon => "ε"

end Symbol

abbrev StateId := Nat

structure State where
  label : String
  accepting : Bool := false
  transitions : List (Symbol × List StateId) := []
  deriving DecidableEq, Repr, Inhabited

namespace State

/-- The label, with a star in front of it if the state accepts. -/
def name (s : State) : String := if s.accepting then "*" ++ s.label else s.label

/-- The transitions one by one, in the order of the symbols and their targets. -/
def edges (s : State) : List (Symbol × StateId) :=
  s.transitions.flatMap fun (symbol, targets) => targets.map (symbol, ·)

def successors (s : State) : List StateId := s.transitions.flatMap Prod.snd

/-- Some transition leads to a state. -/
def hasTransitions (s : State) : Bool := s.transitions.any fun (_, targets) => !targets.isEmpty

def targets (s : State) (symbol : Symbol) : List StateId := (s.transitions.lookup symbol).getD []

end State

/-- States in the order of their creation; the first one is where runs start. -/
structure Automaton where
  states : Array State
  deriving DecidableEq, Repr, Inhabited

/-- The label of the state at a position: the start state is `s`, those behind it are numbered
from `q0` on. -/
def defaultLabel : StateId → String
  | 0 => "s"
  | i + 1 => "q" ++ toString i

namespace Automaton

def blank (count : Nat) : Automaton :=
  ⟨.ofFn fun i : Fin count => { label := defaultLabel i }⟩

def single : Automaton := blank 1

def size (a : Automaton) : Nat := a.states.size

def edgeCount (a : Automaton) : Nat :=
  a.states.foldl (fun total s => s.transitions.foldl (fun n t => n + t.2.length) total) 0

def names (a : Automaton) : List String := a.states.toList.map State.name

def name? (a : Automaton) (id : StateId) : Option String := a.states[id]?.map State.name

def find? (a : Automaton) (label : String) : Option StateId :=
  a.states.findIdx? (·.label == label)

/-- The symbols that states have entries for, in the order of their discovery. -/
def alphabet (a : Automaton) : List Symbol :=
  Arrival.distinct (a.states.toList.flatMap fun s => s.transitions.map Prod.fst)

end Automaton

end CaretAutomata

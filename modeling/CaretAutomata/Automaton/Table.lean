import CaretAutomata.Automaton.Basic

/-! # The transition table

Cells are separated by tabs, rows by line ends. The first row holds an empty cell and the symbols
between quotes; every further row holds the name of a state and, for every symbol, the names of its
targets between braces. A cell is empty if the state has no entry for the symbol, and the first row
is left out if no state has any entry. -/

namespace CaretAutomata.Automaton

def tableHeader (symbols : List Symbol) : List String :=
  if symbols.isEmpty then []
  else [String.join (symbols.map fun symbol => "\t'" ++ symbol.text ++ "'")]

/-- The cell of a state's targets on a symbol, with the tab in front of it. -/
def tableCell? (a : Automaton) (s : State) (symbol : Symbol) : Option String :=
  match s.transitions.lookup symbol with
  | none => some "\t"
  | some targets => do
    let names ← targets.mapM a.name?
    return "\t\x7b" ++ ",".intercalate names ++ "\x7d"

def tableRow? (a : Automaton) (symbols : List Symbol) (s : State) : Option String := do
  let cells ← symbols.mapM (a.tableCell? s)
  return String.join (s.name :: cells)

/-- The table. There is none if a target does not exist. -/
def table? (a : Automaton) : Option String := do
  let symbols := a.alphabet
  let rows ← a.states.toList.mapM (a.tableRow? symbols)
  return "\n".intercalate (tableHeader symbols ++ rows)

end CaretAutomata.Automaton

import CaretAutomata.Automaton.Acceptance
import CaretAutomata.Automaton.Flowchart
import CaretAutomata.Automaton.Table
import CaretAutomata.Automaton.Wiring
import CaretAutomata.Pattern.Reading

/-! # From a pattern to its table and flowchart

The empty pattern has no tree; its automaton is the start state alone, and nothing is marked in it.
Every other pattern is read, wired and classified. A pattern that is refused can be answered with
its message in place of the table, and a page in a browser is answered in no other way. -/

namespace CaretAutomata

open Pattern (Fault Limits parse)

/-- The two texts that show a pattern's automaton, or a message and an empty flowchart. -/
structure Rendering where
  table : String
  flowchart : String
  isDiagnostic : Bool
  deriving DecidableEq, Repr, Inhabited

/-- The automaton of a tree, its accepting states marked. -/
def Extent.compile (e : Extent) : Automaton := (Automaton.ofExtent e).classify

def compile (limits : Limits) (pattern : String) : Except Fault Automaton :=
  if pattern.isEmpty then .ok .single else (parse limits pattern).map Extent.compile

namespace Rendering

/-- Shows an automaton. Both texts exist for the automaton of a pattern, whose edges lead to
existing states only. -/
def ofAutomaton (a : Automaton) : Rendering :=
  ⟨a.table?.getD "", a.flowchart?.getD Automaton.flowchartHeader, false⟩

/-- A message in place of the table. -/
def diagnostic (message : String) : Rendering := ⟨message, Automaton.flowchartHeader, true⟩

end Rendering

def render (limits : Limits) (pattern : String) : Except Fault Rendering :=
  (compile limits pattern).map .ofAutomaton

/-- The table and flowchart of a pattern, or the message that says why it is refused. -/
def renderOrDiagnose (limits : Limits) (pattern : String) : Rendering :=
  match render limits pattern with
  | .ok rendering => rendering
  | .error fault => .diagnostic fault.message

/-- What a script in a page gets: a rendering, whose parts it can only ask for. -/
structure PageRendering where
  inner : Rendering
  deriving DecidableEq, Repr, Inhabited

namespace PageRendering

def ofPattern (pattern : String) : PageRendering := ⟨renderOrDiagnose {} pattern⟩

def withLimits (pattern : String) (maxLength maxDepth : Nat) : PageRendering :=
  ⟨renderOrDiagnose { maxLength, maxDepth } pattern⟩

def table (t : PageRendering) : String := t.inner.table

def flowchart (t : PageRendering) : String := t.inner.flowchart

def isDiagnostic (t : PageRendering) : Bool := t.inner.isDiagnostic

end PageRendering

theorem compile_empty (limits : Limits) : compile limits "" = .ok .single := rfl

theorem compile_of_ne_empty (limits : Limits) {pattern : String} (h : pattern ≠ "") :
    compile limits pattern = (parse limits pattern).map Extent.compile := by
  simp [compile, h]

theorem compile_of_parse {limits : Limits} {pattern : String} {t : Extent} (hne : pattern ≠ "")
    (h : parse limits pattern = .ok t) : compile limits pattern = .ok t.compile := by
  rw [compile_of_ne_empty limits hne, h]
  rfl

/-- What compiles has a tree, unless it is empty. -/
theorem parse_of_compile {limits : Limits} {pattern : String} {a : Automaton} (hne : pattern ≠ "")
    (h : compile limits pattern = .ok a) : ∃ t, parse limits pattern = .ok t ∧ t.compile = a := by
  rw [compile_of_ne_empty limits hne] at h
  cases hparse : parse limits pattern with
  | error fault =>
    rw [hparse] at h
    exact absurd h (by simp [Except.map])
  | ok t =>
    rw [hparse] at h
    exact ⟨t, rfl, Except.ok.inj h⟩

end CaretAutomata

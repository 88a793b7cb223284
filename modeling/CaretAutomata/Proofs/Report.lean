import CaretAutomata.Proofs.Automaton.Flowchart
import CaretAutomata.Proofs.Automaton.Table
import CaretAutomata.Proofs.Pattern.Limits
import CaretAutomata.Report

/-!
# One answer for a pattern

A pattern can be compiled, rendered, reported on, or diagnosed, and a page can ask for its rendering.
The report goes its own way: it looks for the empty pattern by itself, and it reads, wires and
classifies by itself, since it is after the tree. It arrives where the others do nevertheless, at the
same fault (`Report.ofPattern_of_compile_eq_error`) or at the same automaton
(`Report.ofPattern_of_compile_eq_ok`). A message and a rendering can be told apart by their
flowcharts: that of an automaton has a line for its start state
(`Automaton.Legible.flowchart_ne_header`).
-/

namespace CaretAutomata

open Pattern

variable {limits : Limits} {pattern : String} {fault : Fault} {a : Automaton}

/-- Only what cannot be read is refused, and the empty pattern is not read. -/
theorem parse_of_compile_eq_error (h : compile limits pattern = .error fault) :
    pattern ≠ "" ∧ parse limits pattern = .error fault := by
  have hne : pattern ≠ "" := by
    rintro rfl
    exact absurd h (by simp [compile_empty])
  refine ⟨hne, ?_⟩
  rw [compile_of_ne_empty limits hne] at h
  cases hparse : parse limits pattern with
  | ok t => exact absurd h (by simp [hparse, Except.map])
  | error found =>
    rw [hparse] at h
    exact congrArg Except.error (Except.error.inj h)

theorem compile_ne_emptyPattern (h : compile limits pattern = .error fault) :
    fault ≠ .emptyPattern := by
  rintro rfl
  obtain ⟨hne, hparse⟩ := parse_of_compile_eq_error h
  exact hne (eq_empty_of_parse hparse)

/-- What compiles still compiles, to the same automaton, once its runs of markers are collapsed. -/
theorem compile_collapsed (h : compile limits pattern = .ok a) :
    compile limits (String.ofList (collapse pattern.toList)) = .ok a := by
  by_cases hne : pattern = ""
  · rw [hne] at h ⊢
    exact h
  · obtain ⟨t, hparse, rfl⟩ := parse_of_compile hne h
    have hcollapsed := (parse_collapsed (within_of_parse hparse).1).trans hparse
    have hne' : String.ofList (collapse pattern.toList) ≠ "" := fun heq =>
      toList_ne_nil_of_parse hcollapsed (congrArg String.toList heq)
    exact compile_of_parse hne' hcollapsed

namespace Report

/-- The report of a pattern that has a tree is made from the tree. -/
theorem ofPattern_of_ne_empty (limits : Limits) (hne : pattern ≠ "") : ofPattern limits pattern =
    (parse limits pattern).map fun t => ⟨pattern, String.ofList (collapse pattern.toList), t.inspect,
      t.compile.size, .ofAutomaton t.compile⟩ := by
  have hnonempty : pattern.isEmpty = false := by simpa using hne
  rw [ofPattern, hnonempty]
  cases parse limits pattern <;> rfl

/-- What does not compile has no report, for the same fault. -/
theorem ofPattern_of_compile_eq_error (h : compile limits pattern = .error fault) :
    ofPattern limits pattern = .error fault := by
  obtain ⟨hne, hparse⟩ := parse_of_compile_eq_error h
  rw [ofPattern_of_ne_empty limits hne, hparse]
  rfl

/-- **The report arrives at the automaton that the pattern compiles to**, by way of its own. -/
theorem ofPattern_of_compile_eq_ok (h : compile limits pattern = .ok a) : ∃ extent,
    ofPattern limits pattern = .ok ⟨pattern, String.ofList (collapse pattern.toList), extent, a.size,
      .ofAutomaton a⟩ := by
  by_cases hne : pattern = ""
  · subst hne
    obtain rfl : Automaton.single = a := Except.ok.inj h
    exact ⟨"<empty>", rfl⟩
  · obtain ⟨t, hparse, rfl⟩ := parse_of_compile hne h
    exact ⟨t.inspect, by rw [ofPattern_of_ne_empty limits hne, hparse]; rfl⟩

end Report

/-- Both texts of a rendering are those of the automaton, and there is more to its flowchart than
the header. -/
theorem ofAutomaton_of_compile (h : compile limits pattern = .ok a) :
    a.table? = some (Rendering.ofAutomaton a).table ∧
    a.flowchart? = some (Rendering.ofAutomaton a).flowchart ∧
    (Rendering.ofAutomaton a).flowchart ≠ Automaton.flowchartHeader := by
  have hlegible := legible_of_compile h
  have htable := Automaton.table_of_closed hlegible.closed
  obtain ⟨d, hd, hne⟩ := hlegible.flowchart_ne_header (size_pos_of_compile h)
  refine ⟨?_, ?_, ?_⟩
  · rw [Rendering.ofAutomaton, htable, Option.getD_some]
  · rw [Rendering.ofAutomaton, hd, Option.getD_some]
  · rwa [Rendering.ofAutomaton, hd, Option.getD_some]

/-! ## The answers -/

/-- The pattern is refused, for one fault, and diagnosed with its message. -/
structure Refused (limits : Limits) (pattern : String) (fault : Fault) : Prop where
  compiled : compile limits pattern = .error fault
  rendered : render limits pattern = .error fault
  reported : Report.ofPattern limits pattern = .error fault
  nonempty : fault ≠ .emptyPattern
  diagnosed : renderOrDiagnose limits pattern = ⟨fault.message, "flowchart LR", true⟩

/-- The pattern is shown, by the texts of its automaton, as its collapsed text is. -/
structure Shown (limits : Limits) (pattern : String) (a : Automaton) (report : Report) : Prop where
  compiled : compile limits pattern = .ok a
  rendered : render limits pattern = .ok report.rendering
  reported : Report.ofPattern limits pattern = .ok report
  table : a.table? = some report.rendering.table
  flowchart : a.flowchart? = some report.rendering.flowchart
  stateCount : report.stateCount = a.size
  normalized : render limits report.normalized = .ok report.rendering
  diagnosed : renderOrDiagnose limits pattern = report.rendering
  noDiagnostic : report.rendering.isDiagnostic = false
  furtherLine : report.rendering.flowchart ≠ "flowchart LR"

theorem refused_of_compile (h : compile limits pattern = .error fault) :
    Refused limits pattern fault where
  compiled := h
  rendered := by rw [render, h]; rfl
  reported := Report.ofPattern_of_compile_eq_error h
  nonempty := compile_ne_emptyPattern h
  diagnosed := by rw [renderOrDiagnose, render, h]; rfl

theorem shown_of_compile (h : compile limits pattern = .ok a) :
    ∃ report, Shown limits pattern a report := by
  obtain ⟨extent, hreport⟩ := Report.ofPattern_of_compile_eq_ok h
  obtain ⟨htable, hflowchart, hne⟩ := ofAutomaton_of_compile h
  exact ⟨_, {
    compiled := h
    rendered := by rw [render, h]; rfl
    reported := hreport
    table := htable
    flowchart := hflowchart
    stateCount := rfl
    normalized := by rw [render, compile_collapsed h]; rfl
    diagnosed := by rw [renderOrDiagnose, render, h]; rfl
    noDiagnostic := rfl
    furtherLine := hne }⟩

/-- What is rendered is a part of the report. -/
theorem render_eq_map_ofPattern (limits : Limits) (pattern : String) :
    render limits pattern = (Report.ofPattern limits pattern).map Report.rendering := by
  cases hcompile : compile limits pattern with
  | error fault =>
    have hrefused := refused_of_compile hcompile
    rw [hrefused.rendered, hrefused.reported]
    rfl
  | ok a =>
    obtain ⟨report, hshown⟩ := shown_of_compile hcompile
    rw [hshown.rendered, hshown.reported]
    rfl

/-- **All ways through the library agree.** A pattern is refused by all of them, for the same fault
and not for being empty, or shown by all of them, and shown in the same way once its runs of markers
are collapsed. What is diagnosed is a message exactly if nothing follows the header of the flowchart,
and a page can ask for all of it. -/
theorem library_agrees (limits : Limits) (pattern : String) :
    ((∃ fault, Refused limits pattern fault) ∨ ∃ a report, Shown limits pattern a report) ∧
    ((renderOrDiagnose limits pattern).isDiagnostic = true ↔
      (renderOrDiagnose limits pattern).flowchart = "flowchart LR") ∧
    (let page := PageRendering.withLimits pattern limits.maxLength limits.maxDepth;
      renderOrDiagnose limits pattern = ⟨page.table, page.flowchart, page.isDiagnostic⟩) ∧
    PageRendering.ofPattern pattern = .withLimits pattern 4096 256 := by
  cases hcompile : compile limits pattern with
  | error fault =>
    have hrefused := refused_of_compile hcompile
    refine ⟨.inl ⟨fault, hrefused⟩, ?_, rfl, rfl⟩
    rw [hrefused.diagnosed]
    exact iff_of_true rfl rfl
  | ok a =>
    obtain ⟨report, hshown⟩ := shown_of_compile hcompile
    refine ⟨.inr ⟨a, report, hshown⟩, ?_, rfl, rfl⟩
    rw [hshown.diagnosed]
    exact iff_of_false (by simp [hshown.noDiagnostic]) hshown.furtherLine

end CaretAutomata

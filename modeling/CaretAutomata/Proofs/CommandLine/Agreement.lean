import CaretAutomata.CommandLine.Run
import CaretAutomata.Proofs.Report

/-!
# One answer on the command line

The commands ask the library in three ways and print at different times: `parse` prints its heading
before it knows whether it can go on, all others print nothing before they have everything. These
others might as well print what they print from a report, whatever they ask for (`answers_eq`), so
they succeed or fail together; and `parse` fails with them, but for the empty pattern.

Of the painter it is assumed that styles are off (`Painter.Off`), since a text that is shown in a
style may not be the text. Of the parser of options it is assumed that it knows its options
(`ArgumentParser.Reads`): what stands before and behind the command gives the same limits for every
command, and what follows `--` is the pattern even if it looks like an option.
-/

namespace CaretAutomata.CommandLine

open Pattern

/-! ## Lines -/

theorem unlines_append (lines others : List String) :
    unlines (lines ++ others) = unlines lines ++ unlines others := by
  simp [unlines]

/-! ## What the commands print -/

/-- The commands that show the automaton end well, and those that show both of its texts print what
the others print one by one. -/
structure Succeed (limits : Limits) (pattern : String) (out : Command → Output) : Prop where
  compiled : ∃ a, compile limits pattern = .ok a
  code : ∀ command ≠ .parse, (out command).code = 0
  messages : ∀ command ≠ .parse, (out command).messages = ""
  both : (out (.render false)).result =
    "Transition table:\n" ++ (out .table).result ++ "\nDiagram:\n" ++ (out .flowchart).result
  report : ∃ front, (out (.render true)).result =
    front ++ (out .table).result ++ "\n" ++ (out .flowchart).result

/-- The commands that show the automaton print nothing but why they cannot. -/
def Fail (limits : Limits) (pattern : String) (out : Command → Output) : Prop :=
  ∃ fault, compile limits pattern = .error fault ∧
    ∀ command ≠ .parse, out command = ⟨1, "", "Error: " ++ fault.message ++ "\n"⟩

/-- All commands end in the same way, apart from `parse` on the empty pattern. -/
structure Agree (limits : Limits) (pattern : String) (out : Command → Output) : Prop where
  same : Succeed limits pattern out ∨ Fail limits pattern out
  parse : pattern ≠ "" → (out .parse).code = (out .table).code ∧
    (out .parse).messages = (out .table).messages
  empty : pattern = "" → Succeed limits pattern out ∧ (out .parse).code = 1

variable {limits : Limits} {pattern : String} {fault : Fault} {a : Automaton}

theorem failure_plain (lines : List String) (fault : Fault) :
    failure .plain lines fault = ⟨1, unlines lines, "Error: " ++ fault.message ++ "\n"⟩ := by
  have hheading : "Error:" ++ " " = "Error: " := rfl
  simp [failure, Painter.plain, unlines, hheading]

/-- What a command answers for a pattern, without styles. -/
def answers (limits : Limits) (pattern : String) (command : Command) : Output :=
  Request.run .plain ⟨command, limits, pattern⟩

/-- The lines that a command prints of a report. -/
def Command.lines : Command → Report → List String
  | .render false, report => renderingLines .plain report.rendering
  | .render true, report => report.lines
  | .table, report => [report.rendering.table]
  | .flowchart, report => [report.rendering.flowchart]
  | .parse, _ => []

theorem answer_map {α β : Type} (paint : Painter) (lines : β → List String) (f : α → β)
    (answered : Except Fault α) :
    answer paint lines (answered.map f) = answer paint (lines ∘ f) answered := by
  cases answered <;> rfl

/-- **Every command that shows the automaton prints a part of the report**, whether it asks for it or
not. -/
theorem answers_eq (limits : Limits) (pattern : String) {command : Command}
    (hcommand : command ≠ .parse) :
    answers limits pattern command = answer .plain command.lines (Report.ofPattern limits pattern) := by
  have hpart : ∀ lines : Rendering → List String, answer .plain lines (render limits pattern) =
      answer .plain (lines ∘ Report.rendering) (Report.ofPattern limits pattern) := by
    intro lines
    rw [render_eq_map_ofPattern, answer_map]
  cases command with
  | render withReport =>
    cases withReport with
    | false => exact hpart _
    | true => rfl
  | table => exact hpart _
  | flowchart => exact hpart _
  | parse => exact absurd rfl hcommand

theorem answers_of_refused (h : Refused limits pattern fault) {command : Command}
    (hcommand : command ≠ .parse) : answers limits pattern command = failure .plain [] fault := by
  rw [answers_eq limits pattern hcommand, h.reported]
  rfl

theorem answers_of_shown {report : Report} (h : Shown limits pattern a report) {command : Command}
    (hcommand : command ≠ .parse) :
    answers limits pattern command = success (command.lines report) := by
  rw [answers_eq limits pattern hcommand, h.reported]
  rfl

theorem fail_of_refused (h : Refused limits pattern fault) :
    Fail limits pattern (answers limits pattern) := by
  refine ⟨fault, h.compiled, fun command hcommand => ?_⟩
  rw [answers_of_refused h hcommand, failure_plain]
  rfl

theorem succeed_of_shown {report : Report} (h : Shown limits pattern a report) :
    Succeed limits pattern (answers limits pattern) where
  compiled := ⟨a, h.compiled⟩
  code command hcommand := by rw [answers_of_shown h hcommand]; rfl
  messages command hcommand := by rw [answers_of_shown h hcommand]; rfl
  both := by
    rw [answers_of_shown h (by decide), answers_of_shown h (by decide),
      answers_of_shown h (by decide), ← String.toList_inj]
    simp [success, Command.lines, renderingLines, unlines, Painter.plain]
  report := by
    obtain ⟨front, hlines⟩ : ∃ front, report.lines =
        front ++ [report.rendering.table, "", report.rendering.flowchart] :=
      ⟨report.lines.take 7, rfl⟩
    refine ⟨unlines front, ?_⟩
    rw [answers_of_shown h (by decide), answers_of_shown h (by decide),
      answers_of_shown h (by decide), success, Command.lines, hlines, unlines_append,
      ← String.toList_inj]
    simp [success, Command.lines, unlines]

/-- `parse` says the same as the others of all patterns but the empty one. -/
theorem answers_parse (limits : Limits) {pattern : String} (hne : pattern ≠ "") :
    (answers limits pattern .parse).code = (answers limits pattern .table).code ∧
    (answers limits pattern .parse).messages = (answers limits pattern .table).messages := by
  cases hcompile : compile limits pattern with
  | error fault =>
    obtain ⟨-, hparse⟩ := parse_of_compile_eq_error hcompile
    have htable : answers limits pattern .table = _ :=
      answers_of_refused (refused_of_compile hcompile) (by decide)
    rw [htable, answers, Request.run, hparse]
    exact ⟨rfl, rfl⟩
  | ok a =>
    obtain ⟨t, hparse, -⟩ := parse_of_compile hne hcompile
    obtain ⟨report, hshown⟩ := shown_of_compile hcompile
    have htable : answers limits pattern .table = _ := answers_of_shown hshown (by decide)
    rw [htable, answers, Request.run, hparse]
    exact ⟨rfl, rfl⟩

theorem agree_answers (limits : Limits) (pattern : String) :
    Agree limits pattern (answers limits pattern) where
  same := by
    cases hcompile : compile limits pattern with
    | error fault => exact .inr (fail_of_refused (refused_of_compile hcompile))
    | ok a =>
      obtain ⟨report, hshown⟩ := shown_of_compile hcompile
      exact .inl (succeed_of_shown hshown)
  parse hne := answers_parse limits hne
  empty := by
    rintro rfl
    obtain ⟨report, hshown⟩ := shown_of_compile (compile_empty limits)
    have hparse : parse limits "" = .error .emptyPattern := parse_of_toList_eq_nil rfl
    refine ⟨succeed_of_shown hshown, ?_⟩
    rw [answers, Request.run, hparse]
    rfl

/-! ## Whole command lines -/

/-- Styles are off: a text is printed as it is. -/
def Painter.Off (paint : Painter) : Prop := ∀ style text, paint style text = text

theorem Painter.Off.eq_plain {paint : Painter} (h : paint.Off) : paint = .plain := by
  funext style text
  exact h style text

/-- How a command is asked for. -/
def Command.words : Command → List String
  | .render false => ["translate"]
  | .render true => ["translate", "--debug"]
  | .table => ["table"]
  | .flowchart => ["diagram"]
  | .parse => ["parse"]

/-- A command between options, and behind `--` its pattern. -/
def commandLine (before : List String) (command : Command) (behind : List String)
    (pattern : String) : List String :=
  before ++ command.words ++ behind ++ ["--", pattern]

/-- The words before and behind a command are options that give these limits, with the environment
as it is. -/
def ArgumentParser.Reads (parser : ArgumentParser) (before behind : List String)
    (limits : Limits) : Prop :=
  ∀ command pattern,
    parser (commandLine before command behind pattern) = .ok ⟨command, limits, pattern⟩

/-- **All commands agree**, on every pattern and under all limits; and so do the command lines that
ask for them, if the parser of options reads these limits from each of them. -/
theorem commands_agree (paint : Painter) (hpaint : paint.Off) :
    (∀ (limits : Limits) (pattern : String),
      Agree limits pattern fun command => Request.run paint ⟨command, limits, pattern⟩) ∧
    ∀ (parser : ArgumentParser) (before behind : List String) (limits : Limits),
      parser.Reads before behind limits → ∀ pattern : String,
        Agree limits pattern fun command =>
          run paint parser (commandLine before command behind pattern) := by
  obtain rfl := hpaint.eq_plain
  refine ⟨agree_answers, fun parser before behind limits hreads pattern => ?_⟩
  have hrun : (fun command => run .plain parser (commandLine before command behind pattern)) =
      answers limits pattern := by
    funext command
    rw [run, hreads command pattern]
    rfl
  rw [hrun]
  exact agree_answers limits pattern

/-- The parser, as far as it is asked for a length before the command and a depth behind it. -/
def lengthThenDepth : ArgumentParser
  | ["--max-len", "4", "translate", "--max-depth=3", "--", pattern] =>
    .ok ⟨.render false, ⟨4, 3⟩, pattern⟩
  | ["--max-len", "4", "translate", "--debug", "--max-depth=3", "--", pattern] =>
    .ok ⟨.render true, ⟨4, 3⟩, pattern⟩
  | ["--max-len", "4", "table", "--max-depth=3", "--", pattern] => .ok ⟨.table, ⟨4, 3⟩, pattern⟩
  | ["--max-len", "4", "diagram", "--max-depth=3", "--", pattern] =>
    .ok ⟨.flowchart, ⟨4, 3⟩, pattern⟩
  | ["--max-len", "4", "parse", "--max-depth=3", "--", pattern] => .ok ⟨.parse, ⟨4, 3⟩, pattern⟩
  | _ => .error ⟨2, "", "error: unexpected argument found\n"⟩

/-- The pattern looks like an option, and it is too long. -/
theorem commands_agree_lengthThenDepth : Painter.plain.Off ∧
    lengthThenDepth.Reads ["--max-len", "4"] ["--max-depth=3"] ⟨4, 3⟩ ∧
    Agree ⟨4, 3⟩ "-(a|b)" fun command =>
      run .plain lengthThenDepth (commandLine ["--max-len", "4"] command ["--max-depth=3"] "-(a|b)") := by
  have hoff : Painter.plain.Off := fun _ _ => rfl
  have hreads : lengthThenDepth.Reads ["--max-len", "4"] ["--max-depth=3"] ⟨4, 3⟩ := by
    intro command pattern
    cases command with
    | render withReport => cases withReport <;> rfl
    | table => rfl
    | flowchart => rfl
    | parse => rfl
  obtain ⟨-, hlines⟩ := commands_agree .plain hoff
  exact ⟨hoff, hreads, hlines _ _ _ _ hreads "-(a|b)"⟩

end CaretAutomata.CommandLine

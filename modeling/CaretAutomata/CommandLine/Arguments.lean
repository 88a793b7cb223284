import CaretAutomata.Pattern.Reading

/-! # What the command line asks for

A command line names a command, the pattern it is for, and perhaps limits. How the words of a command
line are read is not said here: that is left to a parser of options, which also knows the
environment, where limits may come from as well, and which answers by itself what is no request — a
call for help or for the version, or words that fit nothing. -/

namespace CaretAutomata.CommandLine

open Pattern (Limits)

inductive Command where
  | render (withReport : Bool)
  | table
  | flowchart
  | parse
  deriving DecidableEq, Repr

structure Request where
  command : Command
  limits : Limits
  pattern : String
  deriving DecidableEq, Repr

/-- What a run leaves behind: the code it ends with, and what it prints as its result and as its
messages. -/
structure Output where
  code : UInt32
  result : String
  messages : String
  deriving DecidableEq, Repr

/-- Reads the arguments. It finds a request in them, or ends the run with an output of its own. -/
abbrev ArgumentParser := List String → Except Output Request

end CaretAutomata.CommandLine

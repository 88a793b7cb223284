import CaretAutomata.CommandLine.Run

/-! # The program

Prints what `CommandLine.run` says and ends with its code. The parser of options and the painter of
texts are given from outside, with all they know of the environment; no log is kept. -/

namespace CaretAutomata.CommandLine

def main (paint : Painter) (parser : ArgumentParser) (arguments : List String) : IO UInt32 := do
  let output := run paint parser arguments
  IO.print output.result
  IO.eprint output.messages
  return output.code

end CaretAutomata.CommandLine

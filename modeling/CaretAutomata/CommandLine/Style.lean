/-! # Styled text

The styles that a terminal shows a text in. What a style does to a text is left to whoever paints
it; where styles are off, a text is printed as it is. -/

namespace CaretAutomata.CommandLine

inductive Style where
  | bold
  | cyan
  | green
  | yellow
  | boldRed
  deriving DecidableEq, Repr

/-- Puts a text into a style. -/
abbrev Painter := Style → String → String

/-- Styles are off. -/
def Painter.plain : Painter := fun _ text => text

end CaretAutomata.CommandLine

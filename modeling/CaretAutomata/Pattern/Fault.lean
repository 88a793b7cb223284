/-! # What can be wrong with a pattern

A pattern is refused for its structure, for being empty, or for exceeding a limit. A structural
fault names the defect, the characters where it stands, and the part of the pattern that was being
read when it was found. Positions count characters of the collapsed pattern. -/

namespace CaretAutomata.Pattern

/-- The structural defects. -/
inductive Defect where
  /-- An opening bracket is never closed. -/
  | missingClose
  /-- A closing bracket closes nothing. -/
  | unexpectedClose
  /-- A marker stands directly behind an opening bracket. -/
  | markerAfterOpen
  /-- A marker stands directly behind a bar. -/
  | markerAfterBar
  /-- A repeated group holds nothing. -/
  | emptyRepetition
  /-- A marker has nothing in front of it. -/
  | nothingToRepeat
  /-- A group holds nothing. -/
  | emptyGroup
  /-- An alternative is empty. -/
  | emptyAlternative
  deriving DecidableEq, Repr

def Defect.description : Defect → String
  | missingClose => "missing ')'"
  | unexpectedClose => "unexpected ')'"
  | markerAfterOpen => "unexpected '^' after '('"
  | markerAfterBar => "unexpected '^' after '|'"
  | emptyRepetition => "empty repetition group"
  | nothingToRepeat => "'^' has nothing to repeat"
  | emptyGroup => "empty group"
  | emptyAlternative => "empty alternative"

/-- The positions from `start` on and before `stop`. -/
structure Span where
  start : Nat
  stop : Nat
  deriving DecidableEq, Repr

def Span.single (position : Nat) : Span := ⟨position, position + 1⟩

/-- A defect, where it stands, and the part of the pattern in which it was found. -/
structure StructuralFault where
  defect : Defect
  span : Span
  fragment : String
  deriving DecidableEq, Repr

def StructuralFault.message (fault : StructuralFault) : String :=
  fault.defect.description ++ " at position " ++ toString fault.span.start ++ " in `" ++
    fault.fragment ++ "`"

inductive Fault where
  | structural (fault : StructuralFault)
  | emptyPattern
  | tooLong (length limit : Nat)
  | tooDeep (limit : Nat)
  deriving DecidableEq, Repr

def Fault.message : Fault → String
  | structural fault => "parse error: " ++ fault.message
  | emptyPattern => "empty pattern"
  | tooLong length limit =>
    "pattern has " ++ toString length ++ " characters, limit is " ++ toString limit
  | tooDeep limit => "pattern exceeds the parser recursion depth limit of " ++ toString limit

end CaretAutomata.Pattern

import CaretAutomata.Extent.Basic
import CaretAutomata.Pattern.Collapse
import CaretAutomata.Pattern.Outline

/-! # Reading a pattern

A pattern is read from the outside in: the outline of a stretch names the stretches inside it,
each of which is read in its turn. Every level takes one from the depth that is allowed, so reading
ends for every pattern. `read` gives the tree or the first fault, `visits` the stretches on the way
to it. -/

namespace CaretAutomata.Pattern

/-- How long a pattern may be, in characters, and how deep its stretches may be nested. -/
structure Limits where
  maxLength : Nat := 4096
  maxDepth : Nat := 256
  deriving DecidableEq, Repr, Inhabited

/-- What is left to read of a part of a sequence. -/
def Part.readWith (read : Stretch → Except Fault Extent) : Part → Except Fault Extent
  | .sign c => .ok (.leaf c)
  | .repeatedSign c => .ok (.repetition (.leaf c))
  | .nested stretch => read stretch

/-- A structural fault, if there is one, ends the reading. -/
def raise : Option StructuralFault → Except Fault Unit
  | none => .ok ()
  | some fault => .error (.structural fault)

/-- Reads a stretch with `budget` levels left of the `limit` that were allowed. -/
def read (limit : Nat) : (budget : Nat) → Stretch → Except Fault Extent
  | 0, _ => .error (.tooDeep limit)
  | budget + 1, stretch =>
    match stretch.outline with
    | .faulty fault => .error (.structural fault)
    | .repetition body => do
      return .repetition (← read limit budget body)
    | .sequence parts fault => do
      let parts ← parts.mapM (Part.readWith (read limit budget))
      raise fault
      return .concatenation parts
    | .choice alternatives fault => do
      let alternatives ← alternatives.mapM (read limit budget)
      raise fault
      return .union alternatives

/-- The stretch of a whole text, its runs of markers collapsed. -/
def Stretch.ofText (text : List Char) : Stretch := ⟨0, Layout.ofText (collapse text)⟩

/-- The tree of a text, or why it is refused. The length that is limited is that of the text as it
was given. -/
def parseText (limits : Limits) (text : List Char) : Except Fault Extent :=
  if limits.maxLength < text.length then .error (.tooLong text.length limits.maxLength)
  else if text.isEmpty then .error .emptyPattern
  else read limits.maxDepth limits.maxDepth (.ofText text)

/-- The tree of a pattern, or why it is refused. -/
def parse (limits : Limits) (pattern : String) : Except Fault Extent :=
  parseText limits pattern.toList

/-! ## The stretches on the way -/

/-- The stretches that an outline names, in the order in which they are read. -/
def Outline.stretches : Outline → List Stretch
  | .faulty _ => []
  | .repetition body => [body]
  | .sequence parts _ => parts.filterMap fun
    | .nested stretch => some stretch
    | _ => none
  | .choice alternatives _ => alternatives

/-- The members up to the first one for which `good` fails, that one included. The last member is
there whether it is good or not. -/
def throughFirstFailure {α : Type} (good : α → Bool) : List α → List α
  | [] => []
  | [last] => [last]
  | x :: others => if good x then x :: throughFirstFailure good others else [x]

/-- A stretch that is read, and how deep it lies: the whole pattern lies at depth 1. -/
structure Visit where
  stretch : Stretch
  depth : Nat
  deriving DecidableEq, Repr

/-- The stretches that `read` comes to, in its order; it comes to none behind the first fault. -/
def visits (limit : Nat) : (budget : Nat) → Stretch → List Visit
  | 0, _ => []
  | budget + 1, stretch =>
    let succeeds (inside : Stretch) := (read limit budget inside).isOk
    ⟨stretch, limit - budget⟩ ::
      (throughFirstFailure succeeds stretch.outline.stretches).flatMap (visits limit budget)

end CaretAutomata.Pattern

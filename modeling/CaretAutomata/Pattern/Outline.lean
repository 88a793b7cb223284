import CaretAutomata.Pattern.Brackets
import CaretAutomata.Pattern.Fault

/-! # The outline of a stretch

A stretch is a part of a pattern together with its position. `Stretch.outline` says what it is made
of, one level deep:

* a group with a marker behind it, and nothing else, is the repetition of what the group holds;
* brackets around everything else are left out, as many as there are;
* with a bar outside all groups it is a choice of the stretches between the bars;
* otherwise it is a sequence of characters and groups, each perhaps with a marker behind it.

The stretches it names are read in their turn. A structural fault stands behind the parts in front
of it, because those are read first: what is wrong in them is reported first. -/

namespace CaretAutomata.Pattern

/-- A part of a pattern. Only the whole pattern can hold brackets that do not match. -/
structure Stretch where
  start : Nat
  layout : Layout
  deriving DecidableEq, Repr, Inhabited

/-- What a sequence is made of. -/
inductive Part where
  | sign (c : Char)
  | repeatedSign (c : Char)
  | nested (stretch : Stretch)
  deriving DecidableEq, Repr

/-- What a stretch is made of. A sequence or a choice that ends in a fault holds the parts that
stand in front of it. -/
inductive Outline where
  | faulty (fault : StructuralFault)
  | repetition (body : Stretch)
  | sequence (parts : List Part) (fault : Option StructuralFault)
  | choice (alternatives : List Stretch) (fault : Option StructuralFault)
  deriving DecidableEq, Repr

/-- The distance to the first marker directly behind an opening bracket. -/
def markerBehindOpen : List Char → Option Nat
  | '(' :: '^' :: _ => some 1
  | _ :: rest => (markerBehindOpen rest).map (· + 1)
  | [] => none

/-- A bar stands where as many brackets were opened as closed, when `level` more are open at the
start of the text. The count may go below zero. -/
def barAtLevelZero (level : Int) : List Char → Bool
  | [] => false
  | '(' :: rest => barAtLevelZero (level + 1) rest
  | ')' :: rest => barAtLevelZero (level - 1) rest
  | c :: rest => (c == '|' && level == 0) || barAtLevelZero level rest

namespace Stretch

def matched (start : Nat) (nodes : Bracketed) : Stretch := ⟨start, ⟨nodes, [], none⟩⟩

def stop (s : Stretch) : Nat := s.start + s.layout.spelling.length

def span (s : Stretch) : Span := ⟨s.start, s.stop⟩

def fragment (s : Stretch) : String := String.ofList s.layout.spelling

/-- A fault found while this stretch was read. -/
def fault (s : Stretch) (defect : Defect) (span : Span) : StructuralFault :=
  ⟨defect, span, s.fragment⟩

/-! ## Brackets around everything -/

/-- The repetition of a group, and nothing else: the body, which is neither empty nor starts with
a marker. -/
def repeatedGroup? (s : Stretch) : Option (Except StructuralFault Stretch) :=
  match s.layout with
  | ⟨.group inside (.sign '^' .nil), [], none⟩ =>
    some <|
      if inside.isEmpty then .error (s.fault .emptyRepetition s.span)
      else if inside.startsWithMarker then
        .error (s.fault .markerAfterOpen (.single (s.start + 1)))
      else .ok (matched (s.start + 1) inside)
  | _ => none

/-- Leaves out the brackets around all of a matched text, or gives the position of a marker
directly behind one of them. -/
def openBrackets (start : Nat) : Bracketed → Except Nat Stretch
  | .group inside .nil =>
    if inside.startsWithMarker then .error (start + 1) else openBrackets (start + 1) inside
  | nodes => .ok (matched start nodes)

/-! ## Faults found on the way -/

/-- What is wrong behind the matched part of the text, which ends at `position`: a bracket that
closes nothing, a marker behind a bracket that is never closed, or that bracket. -/
def tailFault? (s : Stretch) (position : Nat) : Option StructuralFault :=
  match s.layout.strays, s.layout.unclosed with
  | _ :: _, _ => some (s.fault .unexpectedClose (.single position))
  | [], some rest =>
    match markerBehindOpen ('(' :: rest) with
    | some distance => some (s.fault .markerAfterOpen (.single (position + distance)))
    | none => some (s.fault .missingClose ⟨position, s.stop⟩)
  | [], none => none

/-- A marker behind an opening bracket in the text at `position`. -/
def markerFault? (s : Stretch) (position : Nat) (text : Bracketed) : Option StructuralFault :=
  (markerBehindOpen text.spelling).map fun distance =>
    s.fault .markerAfterOpen (.single (position + distance))

/-- A marker directly behind the bar at `position`, with `text` behind it. -/
def barFault? (s : Stretch) (position : Nat) (text : Bracketed) : Option StructuralFault :=
  if text.startsWithMarker then some (s.fault .markerAfterBar (.single (position + 1))) else none

/-- Nothing where an alternative is expected. -/
def emptinessFault? (s : Stretch) (position : Nat) (text : Bracketed) : Option StructuralFault :=
  if text.isEmpty then some (s.fault .emptyAlternative ⟨position, position⟩) else none

/-! ## Choices -/

/-- A choice has a bar outside all groups. Where brackets are closed that were never opened, the
count of open ones goes below zero and may come back to it. -/
def isChoice (s : Stretch) : Bool :=
  s.layout.nodes.hasBar || barAtLevelZero 0 s.layout.tail

/-- What is wrong with the alternative `text` at `position`. What is wrong `behind` it is found
before it is read. -/
def alternativeFault? (s : Stretch) (position : Nat) (text : Bracketed)
    (behind : Option StructuralFault) : Option StructuralFault :=
  s.markerFault? position text <|> behind <|> s.emptinessFault? position text

/-- The alternatives from `position` on: `first`, and behind every further bar one of `others`. -/
def alternatives (s : Stretch) (position : Nat) (first : Bracketed) :
    List Bracketed → List Stretch × Option StructuralFault
  | [] =>
    let behind := s.tailFault? (position + first.width)
    match s.alternativeFault? position first behind with
    | some fault => ([], some fault)
    | none => ([matched position first], none)
  | second :: others =>
    let bar := position + first.width
    match s.alternativeFault? position first (s.barFault? bar second) with
    | some fault => ([], some fault)
    | none =>
      let (stretches, fault) := s.alternatives (bar + 1) second others
      (matched position first :: stretches, fault)

/-! ## Sequences -/

def prepend (part : Part) (behind : List Part × Option StructuralFault) :
    List Part × Option StructuralFault :=
  (part :: behind.1, behind.2)

/-- Puts the group at `position` in front of the parts behind it, unless a marker stands behind an
opening bracket in it. -/
def prependGroup (s : Stretch) (position : Nat) (group : Bracketed)
    (behind : List Part × Option StructuralFault) : List Part × Option StructuralFault :=
  match s.markerFault? position group with
  | some fault => ([], some fault)
  | none => prepend (.nested (matched position group)) behind

/-- The parts from `position` on. A marker belongs to the character or group in front of it. -/
def parts (s : Stretch) (position : Nat) : Bracketed → List Part × Option StructuralFault
  | .nil => ([], s.tailFault? position)
  | .sign '^' _ => ([], some (s.fault .nothingToRepeat (.single position)))
  | .sign c (.sign '^' rest) => prepend (.repeatedSign c) (s.parts (position + 2) rest)
  | .sign c rest => prepend (.sign c) (s.parts (position + 1) rest)
  | .group inside (.sign '^' rest) =>
    s.prependGroup position (.group inside (.sign '^' .nil))
      (s.parts (position + inside.width + 3) rest)
  | .group inside rest =>
    s.prependGroup position (.group inside .nil) (s.parts (position + inside.width + 2) rest)

/-! ## The outline -/

/-- The outline of a stretch without brackets around it. -/
def inner (s : Stretch) : Outline :=
  if s.isChoice then
    let (first, others) := s.layout.nodes.splitAtBars
    let (stretches, fault) := s.alternatives s.start first others
    .choice stretches fault
  else
    let (parts, fault) := s.parts s.start s.layout.nodes
    .sequence parts fault

/-- What a stretch is made of. -/
def outline (s : Stretch) : Outline :=
  match s.repeatedGroup? with
  | some (.error fault) => .faulty fault
  | some (.ok body) => .repetition body
  | none =>
    if s.layout.isComplete then
      match openBrackets s.start s.layout.nodes with
      | .error position => .faulty (s.fault .markerAfterOpen (.single position))
      | .ok opened =>
        if opened.layout.nodes.isEmpty then .faulty (s.fault .emptyGroup s.span)
        else opened.inner
    else s.inner

end Stretch

end CaretAutomata.Pattern

import Mathlib.Data.Nat.PSub
import CaretAutomata.Proofs.Pattern.Partners

/-!
# Finding an outline by positions

`Stretch.outline` looks at a text that was cut at its brackets beforehand. The scans of this file
find the same outline with nothing at hand but the text and two positions in it: they go from
position to position and keep count of the brackets that are open, and of where the outermost of
them stands (`outlineBetween?`).

Such a scan has ground to lose. It looks at characters by their positions, takes one position off
another, lowers the count, and trusts that a group that ends was opened somewhere. Each of these is
checked here, and a scan in which a check fails has no answer. That none ever fails, and that the
two outlines agree, is `outlineBetween?_eq` in `ScannedOutline.lean`.

A group is named where its bracket closes and is not read on the way. What is found behind it does
not depend on how it is read, so the scan goes on where a reading may have stopped; it has passed
all that the reading looks at.
-/

namespace CaretAutomata.Pattern

open Stretch

/-! ## The scans -/

section Scans

variable (text : List Char)

/-- The characters from `start` on and before `stop`. -/
def slice? (start stop : Nat) : Option (List Char) :=
  if start ≤ stop ∧ stop ≤ text.length then some (text.extract start stop) else none

def between? (start stop : Nat) : Option Stretch :=
  (slice? text start stop).map fun part => ⟨start, .ofText part⟩

/-- A fault found between `start` and `stop`. -/
def faultBetween? (start stop : Nat) (defect : Defect) (span : Span) : Option StructuralFault :=
  (slice? text start stop).map fun part => ⟨defect, span, String.ofList part⟩

/-- A marker stands at a position in front of `stop`. -/
def markerAt? (stop position : Nat) : Option Bool :=
  if position < stop then text[position]?.map (· == '^') else some false

/-- Nothing, and the fault that ends it. -/
def endedBy {α : Type} (fault : StructuralFault) : List α × Option StructuralFault :=
  ([], some fault)

/-- Goes through a text at `position` to where no bracket is open any more, when `level` are. -/
def closingFrom (level position : Nat) : List Char → Option Nat
  | [] => none
  | '(' :: rest => closingFrom (level + 1) (position + 1) rest
  | ')' :: rest =>
    if level - 1 = 0 then some position else closingFrom (level - 1) (position + 1) rest
  | _ :: rest => closingFrom level (position + 1) rest

/-- Where the bracket at `start` is closed, if it is closed in front of `stop`. -/
def closing? (start stop : Nat) : Option (Option Nat) :=
  (slice? text start stop).map (closingFrom 0 start)

/-- The repetition of a group, and nothing else. -/
def repetitionBetween? (start stop : Nat) : Option (Option (Except StructuralFault Stretch)) := do
  if (← stop.psub start) < 3 then return none
  else if (← text[start]?) ≠ '(' then return none
  else if (← text[← stop.psub 1]?) ≠ '^' then return none
  else if (← text[← stop.psub 2]?) ≠ ')' then return none
  else if (← closing? text start stop) ≠ some (← stop.psub 2) then return none
  else if (← stop.psub 2) = start + 1 then
    return some (.error (← faultBetween? text start stop .emptyRepetition ⟨start, stop⟩))
  else if ← markerAt? text stop (start + 1) then
    return some (.error (← faultBetween? text start stop .markerAfterOpen (.single (start + 1))))
  else return some (.ok (← between? text (start + 1) (← stop.psub 2)))

/-- Leaves out the brackets around everything from `first` on and before `last`. -/
def openBetween? (start stop first last : Nat) : Option (Except StructuralFault (Nat × Nat)) :=
  if first < last then
    match h : last.psub 1 with
    | none => none
    | some close => do
      if (← text[first]?) ≠ '(' then return .ok (first, last)
      else if (← closing? text first last) ≠ some close then return .ok (first, last)
      else if ← markerAt? text last (first + 1) then
        return .error (← faultBetween? text start stop .markerAfterOpen (.single (first + 1)))
      else openBetween? start stop (first + 1) close
  else some (.ok (first, last))
termination_by last
decreasing_by
  have := Nat.psub_eq_some.mp h
  omega

/-- The parts of a sequence from `position` on, when `level` brackets are open, the outermost one at
`opened`. -/
def partsFrom? (start stop position level : Nat) (opened : Option Nat) :
    Option (List Part × Option StructuralFault) :=
  if position < stop then do
    let c ← text[position]?
    if c = '(' then
      if ← markerAt? text stop (position + 1) then
        return endedBy (← faultBetween? text start stop .markerAfterOpen (.single (position + 1)))
      else
        partsFrom? start stop (position + 1) (level + 1)
          (if level = 0 then some position else opened)
    else if c = ')' then
      if level = 0 then
        return endedBy (← faultBetween? text start stop .unexpectedClose (.single position))
      else
        let outside ← level.ppred
        if outside = 0 then
          let first ← opened
          let marked ← markerAt? text stop (position + 1)
          let group ← between? text first (position + 1 + marked.toNat)
          return prepend (.nested group)
            (← partsFrom? start stop (position + 1 + marked.toNat) outside none)
        else partsFrom? start stop (position + 1) outside opened
    else if 0 < level then partsFrom? start stop (position + 1) level opened
    else if c = '^' then
      return endedBy (← faultBetween? text start stop .nothingToRepeat (.single position))
    else
      let marked ← markerAt? text stop (position + 1)
      let part := if marked then .repeatedSign c else .sign c
      return prepend part (← partsFrom? start stop (position + 1 + marked.toNat) level opened)
  else
    match opened with
    | some first => do return endedBy (← faultBetween? text start stop .missingClose ⟨first, stop⟩)
    | none => return ([], none)
termination_by stop - position

/-- The alternatives of a choice. The one that is scanned at `position` began at `segment`. -/
def alternativesFrom? (start stop position level : Nat) (opened : Option Nat) (segment : Nat) :
    Option (List Stretch × Option StructuralFault) :=
  if position < stop then do
    let c ← text[position]?
    if c = '(' then
      if ← markerAt? text stop (position + 1) then
        return endedBy (← faultBetween? text start stop .markerAfterOpen (.single (position + 1)))
      else
        alternativesFrom? start stop (position + 1) (level + 1)
          (if level = 0 then some position else opened) segment
    else if c = ')' then
      if level = 0 then
        return endedBy (← faultBetween? text start stop .unexpectedClose (.single position))
      else
        let outside ← level.ppred
        alternativesFrom? start stop (position + 1) outside
          (if outside = 0 then none else opened) segment
    else if c = '|' ∧ level = 0 then
      if ← markerAt? text stop (position + 1) then
        return endedBy (← faultBetween? text start stop .markerAfterBar (.single (position + 1)))
      else if segment = position then
        return endedBy (← faultBetween? text start stop .emptyAlternative ⟨segment, position⟩)
      else
        let alternative ← between? text segment position
        let (others, fault) ←
          alternativesFrom? start stop (position + 1) level opened (position + 1)
        return (alternative :: others, fault)
    else alternativesFrom? start stop (position + 1) level opened segment
  else
    match opened with
    | some first => do return endedBy (← faultBetween? text start stop .missingClose ⟨first, stop⟩)
    | none =>
      if segment = stop then do
        return endedBy (← faultBetween? text start stop .emptyAlternative ⟨segment, stop⟩)
      else do return ([← between? text segment stop], none)
termination_by stop - position

/-- The outline of what stands from `start` on and before `stop`. -/
def outlineBetween? (start stop : Nat) : Option Outline := do
  match ← repetitionBetween? text start stop with
  | some (.error fault) => return .faulty fault
  | some (.ok body) => return .repetition body
  | none =>
    match ← openBetween? text start stop start stop with
    | .error fault => return .faulty fault
    | .ok (first, last) =>
      if first = last then
        return .faulty (← faultBetween? text start stop .emptyGroup ⟨start, stop⟩)
      else if barAtLevelZero 0 (← slice? text first last) then
        let (alternatives, fault) ← alternativesFrom? text first last first 0 none first
        return .choice alternatives fault
      else
        let (parts, fault) ← partsFrom? text first last first 0 none
        return .sequence parts fault

end Scans

/-! ## What a scan sees -/

/-- From `position` on and before `stop` stands `left`. -/
structure Ahead (text : List Char) (stop position : Nat) (left : List Char) : Prop where
  slice : SliceAt text position left
  stop_eq : position + left.length = stop

section Ahead

variable {text left first rest : List Char} {stop position : Nat} {c : Char}

theorem slice?_of_ahead (h : Ahead text stop position left) :
    slice? text position stop = some left := by
  obtain rfl := h.stop_eq
  rw [slice?, if_pos ⟨Nat.le_add_right .., h.slice.le_length⟩, h.slice.extract_eq]

theorem Ahead.take (h : Ahead text stop position (first ++ rest)) :
    Ahead text (position + first.length) position first :=
  ⟨h.slice.left, rfl⟩

theorem Ahead.drop (h : Ahead text stop position (first ++ rest)) :
    Ahead text stop (position + first.length) rest := by
  refine ⟨h.slice.right, ?_⟩
  rw [← h.stop_eq, List.length_append, Nat.add_assoc]

theorem Ahead.next (h : Ahead text stop position (c :: rest)) :
    Ahead text stop (position + 1) rest := by
  rw [← List.singleton_append] at h
  exact h.drop

theorem Ahead.lt (h : Ahead text stop position (c :: rest)) : position < stop := by
  rw [← h.stop_eq, List.length_cons]
  omega

theorem Ahead.getElem? (h : Ahead text stop position (c :: rest)) : text[position]? = some c := by
  obtain ⟨front, behind, rfl, rfl⟩ := h.slice
  simp

theorem Ahead.eq_stop (h : Ahead text stop position []) : position = stop := h.stop_eq

/-- A scan looks at most one position beyond the character it is at. -/
theorem Ahead.markerAt? (h : Ahead text stop position left) :
    markerAt? text stop position = some (left.head? == some '^') := by
  cases left with
  | nil =>
    rw [Pattern.markerAt?, if_neg (Nat.not_lt.mpr (Nat.le_of_eq h.eq_stop.symm))]
    rfl
  | cons c rest =>
    rw [Pattern.markerAt?, if_pos h.lt, h.getElem?]
    rfl

theorem Ahead.through {b : Bracketed} (h : Ahead text stop position (b.spelling ++ rest)) :
    Ahead text stop (position + b.width) rest := by
  rw [← Bracketed.length_spelling]
  exact h.drop

theorem Ahead.front {b : Bracketed} (h : Ahead text stop position (b.spelling ++ rest)) :
    Ahead text (position + b.width) position b.spelling := by
  rw [← Bracketed.length_spelling]
  exact h.take

theorem between?_of_ahead {b : Bracketed} (hb : b.Proper)
    (h : Ahead text stop position b.spelling) :
    between? text position stop = some (matched position b) := by
  rw [between?, slice?_of_ahead h, Option.map_some, Layout.ofText_spelling hb]
  rfl

end Ahead

/-- The stretch lies in the text, and was cut at its brackets. -/
structure Stretch.CutFrom (text : List Char) (s : Stretch) : Prop where
  slice : SliceAt text s.start s.layout.spelling
  layout : s.layout = .ofText s.layout.spelling

section CutFrom

variable {text : List Char} {s : Stretch}

theorem Stretch.CutFrom.ahead (hs : s.CutFrom text) :
    Ahead text s.stop s.start s.layout.spelling :=
  ⟨hs.slice, rfl⟩

theorem Stretch.CutFrom.fault (hs : s.CutFrom text) (defect : Defect) (span : Span) :
    faultBetween? text s.start s.stop defect span = some (s.fault defect span) := by
  rw [faultBetween?, slice?_of_ahead hs.ahead]
  rfl

theorem Stretch.CutFrom.proper (hs : s.CutFrom text) : s.layout.nodes.Proper := by
  rw [hs.layout]
  exact (Layout.proper_ofText _).1

theorem cutFrom_matched {position : Nat} {b : Bracketed} (hb : b.Proper)
    (h : SliceAt text position b.spelling) : (matched position b).CutFrom text := by
  refine ⟨?_, ?_⟩
  · rw [spelling_matched]
    exact h
  · rw [spelling_matched, Layout.ofText_spelling hb]
    rfl

end CutFrom

end CaretAutomata.Pattern

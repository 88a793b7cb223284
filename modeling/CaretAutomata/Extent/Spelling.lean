import CaretAutomata.Extent.Basic

/-! # Writing a tree as a pattern

Brackets are written only where the reading of a pattern asks for them: around a concatenation or
a union that is part of a concatenation, around a union that is an alternative of a union, and
around a repeated body that is no single character. -/

namespace CaretAutomata.Extent

/-- A part of a concatenation that needs no brackets: a leaf or a repetition. -/
def isUnit : Extent → Bool
  | leaf _ | repetition _ => true
  | concatenation _ | union _ => false

def isUnion : Extent → Bool
  | union _ => true
  | _ => false

def isLeaf : Extent → Bool
  | leaf _ => true
  | _ => false

/-- Puts a text between brackets if `needed`. -/
def bracketIf (needed : Bool) (text : List Char) : List Char :=
  if needed then '(' :: (text ++ [')']) else text

theorem bracketIf_true (text : List Char) : bracketIf true text = '(' :: (text ++ [')']) := rfl

mutual

/-- The characters of the tree's pattern. -/
def spelling : Extent → List Char
  | leaf c => [c]
  | concatenation parts => spellParts parts
  | union alternatives => spellAlternatives alternatives
  | repetition body => bracketIf (!body.isLeaf) body.spelling ++ ['^']

def spellParts : List Extent → List Char
  | [] => []
  | part :: others => bracketIf (!part.isUnit) part.spelling ++ spellParts others

/-- The alternatives of a union, with bars between them. -/
def spellAlternatives : List Extent → List Char
  | [] => []
  | [last] => bracketIf last.isUnion last.spelling
  | first :: others =>
    bracketIf first.isUnion first.spelling ++ '|' :: spellAlternatives others

end

theorem spellParts_cons (first : Extent) (others : List Extent) :
    spellParts (first :: others) = bracketIf (!first.isUnit) first.spelling ++ spellParts others :=
  rfl

/-- A bar stands behind every alternative but the last. -/
theorem spellAlternatives_cons (first : Extent) {others : List Extent} (h : others ≠ []) :
    spellAlternatives (first :: others) =
      bracketIf first.isUnion first.spelling ++ '|' :: spellAlternatives others := by
  cases others with
  | nil => exact absurd rfl h
  | cons second others => rfl

def toPattern (e : Extent) : String := String.ofList e.spelling

end CaretAutomata.Extent

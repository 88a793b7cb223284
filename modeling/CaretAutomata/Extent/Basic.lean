/-! # Extents

An extent is a part of a pattern that shares one operation; the extents of a pattern form a tree
with the characters as leaves. Patterns give trees whose root is no leaf and whose alternatives are
no leaves; every definition here covers all trees. -/

namespace CaretAutomata

/-- The tree of a pattern. -/
inductive Extent where
  | leaf (c : Char)
  /-- The parts follow one another. -/
  | concatenation (parts : List Extent)
  /-- One of the alternatives stands here. -/
  | union (alternatives : List Extent)
  /-- The body stands here any number of times. -/
  | repetition (body : Extent)
  deriving Repr, Inhabited

namespace Extent

/-- The characters of a text, one behind the other. -/
def literal (text : List Char) : Extent := concatenation (text.map leaf)

/-! ## Equality -/

mutual

/-- Equality of trees is decided by going through both together. -/
def decideEq : (a b : Extent) → Decidable (a = b)
  | leaf c, leaf d =>
    if h : c = d then isTrue (by rw [h]) else isFalse (by simp [h])
  | concatenation ps, concatenation qs =>
    match decideEqAll ps qs with
    | isTrue h => isTrue (by rw [h])
    | isFalse h => isFalse (by simp [h])
  | union ps, union qs =>
    match decideEqAll ps qs with
    | isTrue h => isTrue (by rw [h])
    | isFalse h => isFalse (by simp [h])
  | repetition b, repetition d =>
    match decideEq b d with
    | isTrue h => isTrue (by rw [h])
    | isFalse h => isFalse (by simp [h])
  | leaf _, concatenation _ | leaf _, union _ | leaf _, repetition _
  | concatenation _, leaf _ | concatenation _, union _ | concatenation _, repetition _
  | union _, leaf _ | union _, concatenation _ | union _, repetition _
  | repetition _, leaf _ | repetition _, concatenation _ | repetition _, union _ =>
    isFalse (by simp)

def decideEqAll : (as bs : List Extent) → Decidable (as = bs)
  | [], [] => isTrue rfl
  | [], _ :: _ | _ :: _, [] => isFalse (by simp)
  | a :: as, b :: bs =>
    match decideEq a b, decideEqAll as bs with
    | isTrue h, isTrue k => isTrue (by rw [h, k])
    | isFalse h, _ => isFalse (by simp [h])
    | _, isFalse k => isFalse (by simp [k])

end

instance : DecidableEq Extent := decideEq

/-! ## Counts -/

mutual

/-- The number of leaves. Every leaf has a state of its own in the automaton of the tree. -/
def leafCount : Extent → Nat
  | leaf _ => 1
  | concatenation parts => leafCountAll parts
  | union alternatives => leafCountAll alternatives
  | repetition body => body.leafCount

def leafCountAll : List Extent → Nat
  | [] => 0
  | e :: others => e.leafCount + leafCountAll others

end

mutual

/-- The number of operations on the longest way from the root down to a leaf. -/
def depth : Extent → Nat
  | leaf _ => 0
  | concatenation parts => depthAll parts + 1
  | union alternatives => depthAll alternatives + 1
  | repetition body => body.depth + 1

def depthAll : List Extent → Nat
  | [] => 0
  | e :: others => max e.depth (depthAll others)

end

end Extent

end CaretAutomata

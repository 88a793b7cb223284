import CaretAutomata.Automaton.Basic
import CaretAutomata.Extent.Basic

/-! # The automaton of a tree

Every leaf of a tree has a state of its own, numbered from left to right behind the start state.
A part of the tree is wired between states that are given to it:

* from its *starters* characters lead into it;
* to its *repeaters* its last leaves lead back, without consuming anything, if it ends the body of
  a repetition;
* at its *exits* it is consumed, and what follows starts there.

`wire` lists the edges of a part in the order in which they are added. -/

namespace CaretAutomata

structure Edge where
  source : StateId
  symbol : Symbol
  target : StateId
  deriving DecidableEq, Repr

/-- The edges of a part, and the states at which it is consumed. -/
structure Wiring where
  edges : List Edge
  exits : List StateId
  deriving DecidableEq, Repr

namespace Extent

open Arrival (distinct merge)

/-- The edges on a character from every starter to the state of its leaf. -/
def enter (starters : List StateId) (c : Char) (leaf : StateId) : List Edge :=
  starters.map fun source => ⟨source, .char c, leaf⟩

/-- The edges from the state of a leaf back to every repeater. -/
def loopBack (leaf : StateId) (repeaters : List StateId) : List Edge :=
  repeaters.map fun target => ⟨leaf, .epsilon, target⟩

mutual

/-- Wires a part whose first leaf has the state `next`. The body of a repetition leads back to all
its starters; a repeated character has a loop of its own instead. Zero occurrences leave the
starters of a repetition as exits. -/
def wire : Extent → (next : StateId) → (starters repeaters : List StateId) → Wiring
  | leaf c, next, starters, repeaters =>
    ⟨enter starters c next ++ loopBack next repeaters, [next]⟩
  | concatenation parts, next, starters, repeaters => wireParts parts next starters repeaters
  | union alternatives, next, starters, repeaters =>
    let wired := wireAlternatives alternatives next starters repeaters
    ⟨wired.edges, distinct wired.exits⟩
  | repetition (leaf c), next, starters, repeaters =>
    ⟨enter starters c next ++ ⟨next, .char c, next⟩ :: loopBack next repeaters,
      merge [next] starters⟩
  | repetition body, next, starters, repeaters =>
    let wired := body.wire next starters (merge repeaters starters)
    ⟨wired.edges, merge wired.exits starters⟩

/-- Wires parts one behind the other. Only the last one leads back to the repeaters. -/
def wireParts : List Extent → (next : StateId) → (starters repeaters : List StateId) → Wiring
  | [], _, starters, _ => ⟨[], starters⟩
  | [last], next, starters, repeaters => last.wire next starters repeaters
  | part :: others, next, starters, repeaters =>
    let first := part.wire next starters []
    let rest := wireParts others (next + part.leafCount) first.exits repeaters
    ⟨first.edges ++ rest.edges, rest.exits⟩

/-- Wires alternatives between the same states; their exits are listed one behind the other. -/
def wireAlternatives :
    List Extent → (next : StateId) → (starters repeaters : List StateId) → Wiring
  | [], _, _, _ => ⟨[], []⟩
  | alternative :: others, next, starters, repeaters =>
    let first := alternative.wire next starters repeaters
    let rest := wireAlternatives others (next + alternative.leafCount) starters repeaters
    ⟨first.edges ++ rest.edges, first.exits ++ rest.exits⟩

end

/-- The wiring of a whole tree, from the start state on. -/
def wiring (e : Extent) : Wiring := e.wire 1 [0] []

end Extent

namespace Automaton

/-- The edges of every state below `count`, in the order of the list. -/
def edgesBySource (count : Nat) (edges : List Edge) : Array (List (Symbol × StateId)) :=
  edges.foldr (fun e found => found.modify e.source ((e.symbol, e.target) :: ·))
    (.replicate count [])

@[simp]
theorem size_edgesBySource (count : Nat) (edges : List Edge) :
    (edgesBySource count edges).size = count := by
  induction edges with
  | nil => simp [edgesBySource]
  | cons e others ih => simpa [edgesBySource] using ih

/-- Every state has the edges that start at it. -/
theorem getElem?_edgesBySource {count : Nat} (edges : List Edge) {id : StateId} (h : id < count) :
    (edgesBySource count edges)[id]? =
      some ((edges.filter (·.source == id)).map fun e => (e.symbol, e.target)) := by
  induction edges with
  | nil => simp [edgesBySource, h]
  | cons e others ih =>
    have : edgesBySource count (e :: others) =
        (edgesBySource count others).modify e.source ((e.symbol, e.target) :: ·) := rfl
    rw [this, Array.getElem?_modify, ih]
    by_cases hs : e.source = id <;> simp [hs]

/-- The transitions that come of a state's edges, added one after the other. -/
def transitionsOf (edges : List (Symbol × StateId)) : List (Symbol × List StateId) :=
  (Arrival.group edges).map fun (symbol, targets) => (symbol, Arrival.distinct targets)

/-- The automaton of `count` states with the given edges, added one after the other. -/
def ofEdges (count : Nat) (edges : List Edge) : Automaton :=
  ⟨(edgesBySource count edges).mapIdx fun id own =>
    { label := defaultLabel id, transitions := transitionsOf own }⟩

@[simp]
theorem size_ofEdges (count : Nat) (edges : List Edge) : (ofEdges count edges).size = count := by
  simp [ofEdges, size]

/-- The automaton of a tree. Its accepting states are not marked yet. -/
def ofExtent (e : Extent) : Automaton := ofEdges (e.leafCount + 1) e.wiring.edges

@[simp]
theorem size_ofExtent (e : Extent) : (ofExtent e).size = e.leafCount + 1 := size_ofEdges ..

end Automaton

end CaretAutomata

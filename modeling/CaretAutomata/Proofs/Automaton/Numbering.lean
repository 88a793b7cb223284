import CaretAutomata.Proofs.Automaton.Reachability
import CaretAutomata.Proofs.Graph.Numbering

/-!
# The numbers of components

What `Graph.Ranked` says of vertices, said of the states of an automaton. The statement speaks of
the entries of the array that is answered and of edges with their symbols; it holds for every
automaton whose edges lead to states, built from a tree or put together by hand.
-/

namespace CaretAutomata.Automaton

/-- **The numbers of components order them.** There is a number for every state; states share one
if each can be reached from the other; no number below the number of components is left out; and
none rises along an edge, so what a component leads to has smaller numbers than its own. -/
theorem componentNumbers_ordered (a : Automaton) (h : a.Closed) :
    ∃ numbers, a.componentNumbers? = some numbers ∧ numbers.size = a.size ∧
      (∃ count, ∀ n, n < count ↔ n ∈ numbers) ∧
      ∀ (p q : StateId) (m n : Nat), numbers[p]? = some m → numbers[q]? = some n →
        (m = n ↔ a.Reaches p q ∧ a.Reaches q p) ∧
        (a.Leads p q → n ≤ m) ∧
        (a.Reaches p q → m ≠ n → n < m) := by
  obtain ⟨numbers, count, hnumbers, hranked⟩ := Graph.componentNumbers_ranked h.graph
  have hsize : numbers.size = a.graph.size := hranked.size
  have hentry : ∀ {v n : Nat}, numbers[v]? = some n → v < a.graph.size ∧ numbers.getD v 0 = n := by
    intro v n hv
    refine ⟨hsize ▸ (Array.getElem?_eq_some_iff.mp hv).1, ?_⟩
    rw [Array.getD_eq_getD_getElem?, hv, Option.getD_some]
  refine ⟨numbers, hnumbers, hsize.trans (size_graph a), ⟨count, fun n => ?_⟩, ?_⟩
  · rw [hranked.used, Array.mem_iff_getElem?]
    constructor
    · intro hn
      obtain ⟨v, hv, rfl⟩ := hn
      refine ⟨v, ?_⟩
      rw [Array.getD_eq_getD_getElem?, Array.getElem?_eq_getElem (hsize ▸ hv), Option.getD_some]
    · intro hn
      obtain ⟨v, hv⟩ := hn
      exact ⟨v, hentry hv⟩
  · intro p q m n hp hq
    obtain ⟨hplt, rfl⟩ := hentry hp
    obtain ⟨hqlt, rfl⟩ := hentry hq
    rw [← reach_graph, ← reach_graph, ← edge_graph]
    refine ⟨hranked.eq_iff p hplt q hqlt, hranked.falls p q, fun hreach hne => ?_⟩
    exact Nat.lt_of_le_of_ne (hranked.le_of_reach hreach) (Ne.symm hne)

/-- Two states in a circle, a state that the circle leads to, twice on one character, and one that
leads to nothing but itself and is led to by nothing. -/
def circleWithExit : Automaton :=
  ⟨#[{ label := "s", transitions := [(.char 'a', [1, 2])] },
    { label := "q0", transitions := [(.epsilon, [0]), (.char 'a', [2])] },
    { label := "q1" },
    { label := "q2", transitions := [(.char 'b', [3])] }]⟩

theorem componentNumbers_ordered_circleWithExit : circleWithExit.Closed ∧
    ∃ numbers, circleWithExit.componentNumbers? = some numbers ∧
      numbers.size = circleWithExit.size ∧
      (∃ count, ∀ n, n < count ↔ n ∈ numbers) ∧
      ∀ (p q : StateId) (m n : Nat), numbers[p]? = some m → numbers[q]? = some n →
        (m = n ↔ circleWithExit.Reaches p q ∧ circleWithExit.Reaches q p) ∧
        (circleWithExit.Leads p q → n ≤ m) ∧
        (circleWithExit.Reaches p q → m ≠ n → n < m) :=
  ⟨by decide, componentNumbers_ordered circleWithExit (by decide)⟩

end CaretAutomata.Automaton

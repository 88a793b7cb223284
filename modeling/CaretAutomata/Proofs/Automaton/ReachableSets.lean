import CaretAutomata.Proofs.Automaton.Reachability
import CaretAutomata.Proofs.Graph.Reachable

/-!
# Reachable sets

What `reachable?` and `reachableSets?` answer, said of the states of an automaton and of `Reaches`.
That the sets are fixed points needs no further look at the search: whatever a member of a set
reaches can be reached over it, so it is in the set already, and every member reaches itself.
-/

namespace CaretAutomata.Automaton

open Relation

variable {a : Automaton}

/-- What `reachable?` answers, for an automaton whose edges lead to states. -/
theorem reachable_of_closed (h : a.Closed) {p : StateId} (hp : p < a.size) :
    ∃ reached : StateId → Bool, a.reachable? p = some ((List.range a.size).filter reached) ∧
      ∀ q, reached q = true ↔ a.Reaches p q := by
  rw [← size_graph] at hp
  obtain ⟨reached, hanswer, hreached⟩ := Graph.reachable_of_closed h.graph hp
  rw [size_graph] at hanswer
  exact ⟨reached, hanswer, fun q => (hreached q).trans reach_graph⟩

/-- The answer is in ascending order, and it holds the states that can be reached and no others. -/
theorem exists_reachable (h : a.Closed) {p : StateId} (hp : p < a.size) :
    ∃ reached, a.reachable? p = some reached ∧ reached.Pairwise (· < ·) ∧
      ∀ q, q ∈ reached ↔ a.Reaches p q := by
  obtain ⟨reached, hanswer, hreached⟩ := reachable_of_closed h hp
  refine ⟨_, hanswer, List.pairwise_lt_range.filter reached, fun q => ?_⟩
  rw [List.mem_filter, List.mem_range, hreached]
  exact and_iff_right_of_imp fun hreach => h.lt_of_reaches hp hreach

/-- There is one set for each state, in their order. -/
theorem reachableSets_of_closed (h : a.Closed) : ∃ sets, a.reachableSets? = some sets ∧
    sets.length = a.size ∧ ∀ (p : StateId) (reached : List StateId),
      sets[p]? = some reached ↔ p < a.size ∧ a.reachable? p = some reached := by
  have hall : ∀ p ∈ List.range a.size, a.graph.reachable? p = some ((a.reachable? p).getD []) := by
    intro p hp
    obtain ⟨reached, hanswer, -⟩ := exists_reachable h (List.mem_range.mp hp)
    rw [hanswer, Option.getD_some]
    exact hanswer
  refine ⟨_, mapM_eq_some_map hall, by simp, fun p reached => ?_⟩
  rw [List.getElem?_map, Option.map_eq_some_iff]
  constructor
  · intro hp
    obtain ⟨id, hid, rfl⟩ := hp
    obtain ⟨hlt, rfl⟩ := List.getElem?_eq_some_iff.mp hid
    rw [List.length_range] at hlt
    rw [List.getElem_range]
    exact ⟨hlt, hall p (List.mem_range.mpr hlt)⟩
  · intro hp
    obtain ⟨hlt, hanswer⟩ := hp
    exact ⟨p, List.getElem?_range hlt, by rw [hanswer, Option.getD_some]⟩

/-- **A reachable set is closed under everything its members reach.** For an automaton whose edges
lead to states, there is an answer for each state: the states that any number of edges lead to. So
the sets of all states are there too, and what is in the sets of the members of a set is what is in
the set itself. -/
theorem reachableSets_fixed (a : Automaton) (h : a.Closed) :
    (∀ id < a.size, ∃ reached, a.reachable? id = some reached ∧ reached.Pairwise (· < ·) ∧
      ∀ q, q ∈ reached ↔ a.Reaches id q) ∧
    ∃ sets, a.reachableSets? = some sets ∧ sets.length = a.size ∧
      ∀ (id : StateId) (reached : List StateId), sets[id]? = some reached →
        a.reachable? id = some reached ∧
        ∀ q, q ∈ reached ↔ ∃ p ∈ reached, ∃ others, sets[p]? = some others ∧ q ∈ others := by
  refine ⟨fun id hid => exists_reachable h hid, ?_⟩
  obtain ⟨sets, hsets, hlength, hat⟩ := reachableSets_of_closed h
  refine ⟨sets, hsets, hlength, fun id reached hreached => ?_⟩
  obtain ⟨hid, hanswer⟩ := (hat id reached).mp hreached
  obtain ⟨reached', hanswer', -, hmem⟩ := exists_reachable h hid
  obtain rfl : reached' = reached := Option.some.inj (hanswer'.symm.trans hanswer)
  refine ⟨hanswer, fun q => ?_⟩
  constructor
  · intro hq
    exact ⟨id, (hmem id).mpr .refl, reached', hreached, hq⟩
  · intro hq
    obtain ⟨p, hp, others, hothers, hq⟩ := hq
    obtain ⟨hlt, hanswer⟩ := (hat p others).mp hothers
    obtain ⟨others', hanswer', -, hmem'⟩ := exists_reachable h hlt
    obtain rfl : others' = others := Option.some.inj (hanswer'.symm.trans hanswer)
    exact (hmem q).mpr (((hmem p).mp hp).trans ((hmem' q).mp hq))

/-- A circle that is entered on two symbols and left for a state with a loop of its own, and a state
that leads into the circle and that nothing leads to. -/
def twoWaysIn : Automaton :=
  ⟨#[{ label := "s", transitions := [(.char 'a', [1, 2]), (.epsilon, [1])] },
    { label := "q0", transitions := [(.char 'b', [0])] },
    { label := "q1", transitions := [(.char 'b', [2])] },
    { label := "q2", transitions := [(.char 'c', []), (.epsilon, [1])] }]⟩

theorem reachableSets_fixed_twoWaysIn : twoWaysIn.Closed ∧
    (∀ id < 4, ∃ reached, twoWaysIn.reachable? id = some reached ∧ reached.Pairwise (· < ·) ∧
      ∀ q, q ∈ reached ↔ twoWaysIn.Reaches id q) ∧
    ∃ sets, twoWaysIn.reachableSets? = some sets ∧ sets.length = 4 ∧
      ∀ (id : StateId) (reached : List StateId), sets[id]? = some reached →
        twoWaysIn.reachable? id = some reached ∧
        ∀ q, q ∈ reached ↔ ∃ p ∈ reached, ∃ others, sets[p]? = some others ∧ q ∈ others := by
  have hclosed : twoWaysIn.Closed := by decide
  exact ⟨hclosed, reachableSets_fixed twoWaysIn hclosed⟩

end CaretAutomata.Automaton

import CaretAutomata.Proofs.Automaton.Census
import CaretAutomata.Proofs.Automaton.Flowchart
import CaretAutomata.Proofs.Automaton.ReachableSets
import CaretAutomata.Proofs.Automaton.Table

/-!
# Edges that lead to no state

A state can be cut off while edges to it stay, and an edge may be added to a state that was never
there. A query that comes to such an edge has no answer. Most of what the library proves begins with
`Closed` and leaves open what happens without it; this file says what happens: a query fails exactly
if there is a dangling edge *of the kind that it follows*.

That a query fails on every such edge is a statement about what it visits. For the components, the
flowchart and the sets of all states it has to visit every edge; the table looks targets up by their
symbols, and so it comes to all of them only because a state has one entry for a symbol; a single
reachable set needs only the edges on the ways from its state. Everything else that a query looks up
was put there by itself, so nothing else can be missing, and that is known already: with all targets
there, every query has an answer.
-/

namespace CaretAutomata.Automaton

open Relation

variable {a : Automaton}

/-- An edge leads to no state. -/
def Dangling (a : Automaton) : Prop := ∃ p symbol q, a.HasEdge p symbol q ∧ a.size ≤ q

/-- The transitions of every state are a map: no symbol has two entries. -/
def SingleEntries (a : Automaton) : Prop := ∀ s ∈ a.states, (s.transitions.map Prod.fst).Nodup

instance (a : Automaton) : Decidable a.SingleEntries :=
  inferInstanceAs (Decidable (∀ s ∈ a.states, (s.transitions.map Prod.fst).Nodup))

theorem closed_of_not_dangling (h : ¬ a.Dangling) : a.Closed := by
  intro p symbol q hedge
  exact Nat.not_le.mp fun hle => h ⟨p, symbol, q, hedge, hle⟩

/-- A query that fails on a dangling edge, and has an answer if there is none. -/
theorem eq_none_iff_dangling {α : Type} {answer : Option α} (hstops : a.Dangling → answer = none)
    (hanswers : a.Closed → ∃ x, answer = some x) : answer = none ↔ a.Dangling := by
  refine ⟨fun hnone => ?_, hstops⟩
  by_contra hno
  obtain ⟨x, hx⟩ := hanswers (closed_of_not_dangling hno)
  rw [hnone] at hx
  exact absurd hx (by simp)

theorem dangling_iff : a.Dangling ↔ ∃ p q, a.Leads p q ∧ a.size ≤ q := by
  unfold Dangling Leads
  constructor
  · intro h
    obtain ⟨p, symbol, q, hedge, hle⟩ := h
    exact ⟨p, q, ⟨symbol, hedge⟩, hle⟩
  · intro h
    obtain ⟨p, q, ⟨symbol, hedge⟩, hle⟩ := h
    exact ⟨p, symbol, q, hedge, hle⟩

/-! ## Queries about the graph -/

theorem componentNumbers?_eq_none_iff : a.componentNumbers? = none ↔ a.Dangling := by
  rw [componentNumbers?, Graph.componentNumbers?_eq_none_iff, size_graph, dangling_iff]
  simp only [edge_graph]

/-- A way that leads to no state comes from an edge of its own, or starts there. -/
theorem reachable?_eq_none_iff {id : StateId} : a.reachable? id = none ↔
    a.size ≤ id ∨ ∃ p q, a.Reaches id p ∧ a.Leads p q ∧ a.size ≤ q := by
  rw [reachable?, Graph.reachable?_eq_none_iff, size_graph]
  simp only [reach_graph]
  constructor
  · intro h
    obtain ⟨q, hreach, hle⟩ := h
    cases hreach with
    | refl => exact .inl hle
    | @tail p _ hreach hedge => exact .inr ⟨p, q, hreach, hedge, hle⟩
  · intro h
    rcases h with hle | ⟨p, q, hreach, hedge, hle⟩
    · exact ⟨id, .refl, hle⟩
    · exact ⟨q, hreach.tail hedge, hle⟩

theorem reachableSets?_eq_none_iff : a.reachableSets? = none ↔ a.Dangling := by
  refine eq_none_iff_dangling (fun h => ?_) fun h => ?_
  · -- the state that a dangling edge leaves has no reachable set
    obtain ⟨p, q, hedge, hle⟩ := dangling_iff.mp h
    have hp : p < a.size := by
      rw [← size_graph]
      exact (edge_graph.mpr hedge).source_lt
    have hnone : a.reachable? p = none := reachable?_eq_none_iff.mpr (.inr ⟨p, q, .refl, hedge, hle⟩)
    exact mapM_eq_none_iff.mpr ⟨p, List.mem_range.mpr hp, hnone⟩
  · obtain ⟨sets, hsets, -⟩ := reachableSets_of_closed h
    exact ⟨sets, hsets⟩

/-! ## Queries about targets -/

theorem foldlM_flag_eq_none_iff : ∀ {targets : List StateId} {flags : Array Bool},
    targets.foldlM flag? flags = none ↔ ∃ q ∈ targets, flags.size ≤ q := by
  intro targets
  induction targets with
  | nil => simp
  | cons first rest ih =>
    intro flags
    rw [List.foldlM_cons, List.exists_mem_cons_iff]
    by_cases hfirst : first < flags.size
    · have hflag : flag? flags first = some (flags.setIfInBounds first true) := if_pos hfirst
      have hsize : (flags.setIfInBounds first true).size = flags.size := Array.size_setIfInBounds
      rw [hflag, or_iff_right (Nat.not_le.mpr hfirst), ← hsize]
      exact ih
    · have hflag : flag? flags first = none := if_neg hfirst
      rw [hflag]
      exact iff_of_true rfl (.inl (Nat.not_lt.mp hfirst))

theorem targeted?_eq_none_iff {keep : Symbol → Bool} : a.targeted? keep = none ↔
    ∃ p symbol q, keep symbol = true ∧ a.HasEdge p symbol q ∧ a.size ≤ q := by
  rw [targeted?, foldlM_flag_eq_none_iff, Array.size_replicate]
  constructor
  · intro h
    obtain ⟨q, hq, hle⟩ := h
    obtain ⟨p, symbol, hkeep, hedge⟩ := mem_targetsOn.mp hq
    exact ⟨p, symbol, q, hkeep, hedge, hle⟩
  · intro h
    obtain ⟨p, symbol, q, hkeep, hedge, hle⟩ := h
    exact ⟨q, mem_targetsOn.mpr ⟨p, symbol, hkeep, hedge⟩, hle⟩

theorem epsilonTargets?_eq_none_iff : a.epsilonTargets? = none ↔
    ∃ p q, a.HasEdge p .epsilon q ∧ a.size ≤ q := by
  rw [epsilonTargets?, targeted?_eq_none_iff]
  simp

theorem classify?_eq_none_iff : a.classify? = none ↔ a.Dangling := by
  refine eq_none_iff_dangling (fun h => ?_) fun h => ?_
  · rw [classify?_eq, marks?, componentNumbers?_eq_none_iff.mpr h]
    rfl
  · obtain ⟨b, hb, -⟩ := exists_classified h
    exact ⟨b, hb⟩

/-- The states that no edge enters cannot be drawn, since it is not known which they are. -/
theorem flowchart?_eq_none_iff : a.flowchart? = none ↔ a.Dangling := by
  refine eq_none_iff_dangling (fun h => ?_) fun h => ?_
  · obtain ⟨p, symbol, q, hedge, hle⟩ := h
    have htargeted : (a.targeted? fun _ => true) = none :=
      targeted?_eq_none_iff.mpr ⟨p, symbol, q, rfl, hedge, hle⟩
    have hisolated : a.isolated? = none := by
      rw [isolated?, htargeted]
      rfl
    rw [flowchart?, hisolated]
    cases a.states.toList.mapM (flowchartLines? (a.states.map fun s => flowchartNode s.name)) <;> rfl
  · obtain ⟨alone, d, hd, -⟩ := flowchart_of_closed h
    exact ⟨d, hd⟩

/-! ## The table -/

theorem lookup_of_mem {transitions : List (Symbol × List StateId)} {symbol : Symbol}
    {targets : List StateId} (hkeys : (transitions.map Prod.fst).Nodup)
    (h : (symbol, targets) ∈ transitions) : transitions.lookup symbol = some targets := by
  rw [List.lookup_eq_some_iff]
  obtain ⟨front, back, rfl⟩ := List.append_of_mem h
  refine ⟨front, back, rfl, fun entry hentry => bne_iff_ne.mpr fun heq => ?_⟩
  rw [List.map_append, List.map_cons, List.nodup_append] at hkeys
  exact hkeys.2.2 entry.1 (List.mem_map.mpr ⟨entry, hentry, rfl⟩) symbol (.head _) heq.symm

theorem mem_alphabet_iff {symbol : Symbol} : symbol ∈ a.alphabet ↔
    ∃ s ∈ a.states, ∃ targets, (symbol, targets) ∈ s.transitions := by
  rw [alphabet, Arrival.mem_distinct]
  simp

theorem tableCell?_eq_none {s : State} {symbol : Symbol} {targets : List StateId}
    (hlookup : s.transitions.lookup symbol = some targets) {q : StateId} (hq : q ∈ targets)
    (hle : a.size ≤ q) : a.tableCell? s symbol = none := by
  have hname : a.name? q = none := by
    rw [name?, Array.getElem?_eq_none hle]
    rfl
  have hnames : targets.mapM a.name? = none := mapM_eq_none_iff.mpr ⟨q, hq, hname⟩
  simp only [tableCell?, hlookup, hnames]
  rfl

theorem table?_eq_none_iff (hkeys : a.SingleEntries) : a.table? = none ↔ a.Dangling := by
  refine eq_none_iff_dangling (fun h => ?_) fun h => ?_
  · obtain ⟨p, symbol, q, ⟨s, hs, hedge⟩, hle⟩ := h
    obtain ⟨targets, hentry, hq⟩ := mem_edges_iff.mp hedge
    have hmem : s ∈ a.states := Array.mem_of_getElem? hs
    have hcell : a.tableCell? s symbol = none :=
      tableCell?_eq_none (lookup_of_mem (hkeys s hmem) hentry) hq hle
    -- the cell is in the row of its state, for the symbol has a column
    have hcells : a.alphabet.mapM (a.tableCell? s) = none :=
      mapM_eq_none_iff.mpr ⟨symbol, mem_alphabet_iff.mpr ⟨s, hmem, targets, hentry⟩, hcell⟩
    have hrow : a.tableRow? a.alphabet s = none := by
      rw [tableRow?, hcells]
      rfl
    have hrows : a.states.toList.mapM (a.tableRow? a.alphabet) = none :=
      mapM_eq_none_iff.mpr ⟨s, Array.mem_toList_iff.mpr hmem, hrow⟩
    rw [table?]
    simp only [hrows]
    rfl
  · exact ⟨_, table_of_closed h⟩

/-! ## All queries together -/

/-- Which edges each query follows. -/
structure StopsAtDangling (a : Automaton) : Prop where
  components : a.componentNumbers? = none ↔ a.Dangling
  classify : a.classify? = none ↔ a.Dangling
  /-- No state is marked before all that the marks depend on is known. -/
  unmarked : a.classify? = none → a.classify = a
  flowchart : a.flowchart? = none ↔ a.Dangling
  table : a.table? = none ↔ a.Dangling
  reachableSets : a.reachableSets? = none ↔ a.Dangling
  epsilonTargets : a.epsilonTargets? = none ↔ ∃ p q, a.HasEdge p .epsilon q ∧ a.size ≤ q
  /-- Only states have edges that leave them, so all on the way to `p`, and `p`, are states. -/
  reachable : ∀ id, a.reachable? id = none ↔
    a.size ≤ id ∨ ∃ p q, a.Reaches id p ∧ a.Leads p q ∧ a.size ≤ q
  /-- What is known without following an edge has an answer always. -/
  alphabet : ∀ symbol, symbol ∈ a.alphabet ↔
    ∃ s ∈ a.states, ∃ targets, (symbol, targets) ∈ s.transitions
  edgeCount : a.edgeCount = (a.states.toList.map fun s => s.successors.length).sum
  find : ∀ label, a.find? label = none ↔ ∀ s ∈ a.states, s.label ≠ label
  found : ∀ label id, a.find? label = some id → ∃ s, a.states[id]? = some s ∧ s.label = label

/-- **Queries fail on the dangling edges that they follow, and on nothing else.** -/
theorem stopsAtDangling (a : Automaton) (hkeys : a.SingleEntries) : a.StopsAtDangling where
  components := componentNumbers?_eq_none_iff
  classify := classify?_eq_none_iff
  unmarked := classify_of_none
  flowchart := flowchart?_eq_none_iff
  table := table?_eq_none_iff hkeys
  reachableSets := reachableSets?_eq_none_iff
  epsilonTargets := epsilonTargets?_eq_none_iff
  reachable _ := reachable?_eq_none_iff
  alphabet _ := mem_alphabet_iff
  edgeCount := edgeCount_eq a
  find label := by
    rw [find?, Array.findIdx?_eq_none_iff]
    simp
  found label id h := by
    obtain ⟨hlt, hlabel, -⟩ := Array.findIdx?_eq_some_iff_getElem.mp h
    exact ⟨_, Array.getElem?_eq_getElem hlt, beq_iff_eq.mp hlabel⟩

/-- The last state of `ab` is cut off, and the edge to it is left. An entry has no targets, and the
start state, from which nothing leads back, bears a mark. -/
def cutShort : Automaton :=
  ⟨#[{ label := "s", accepting := true, transitions := [(.epsilon, []), (.char 'a', [1])] },
    { label := "q0", transitions := [(.char 'b', [2])] }]⟩

theorem stopsAtDangling_cutShort :
    cutShort.SingleEntries ∧ cutShort.Dangling ∧ cutShort.StopsAtDangling := by
  have hedge : cutShort.HasEdge 1 (.char 'b') 2 := ⟨_, rfl, by decide⟩
  exact ⟨by decide, ⟨1, .char 'b', 2, hedge, Nat.le_refl 2⟩, stopsAtDangling cutShort (by decide)⟩

end CaretAutomata.Automaton

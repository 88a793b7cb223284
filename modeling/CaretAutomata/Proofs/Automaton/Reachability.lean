import CaretAutomata.Automaton.Reachability
import CaretAutomata.Proofs.Graph.Numbering

/-!
# Edges, and what they lead to

The statements about an automaton speak of edges and not of the maps that hold them: `HasEdge` is an
edge with its symbol, `Leads` an edge whatever it consumes, `Reaches` any number of them. None of
the three asks for its target to exist — that is `Closed`, and it is a hypothesis wherever it is
needed, since a state can be cut off while edges to it stay.

What the code looks at is the graph underneath. The lemmas here move a statement from one to the
other once, so that nothing further on unfolds `successors` or `targetsOn`.
-/

namespace CaretAutomata

open Relation

/-! ## Edges -/

theorem State.mem_successors {s : State} {q : StateId} :
    q ∈ s.successors ↔ ∃ symbol, (symbol, q) ∈ s.edges := by
  simp only [successors, edges, List.mem_flatMap, List.mem_map, Prod.mk.injEq]
  constructor
  · intro h
    obtain ⟨⟨symbol, targets⟩, hmem, hq⟩ := h
    exact ⟨symbol, (symbol, targets), hmem, q, hq, rfl, rfl⟩
  · intro h
    obtain ⟨_, entry, hmem, _, hq, _, rfl⟩ := h
    exact ⟨entry, hmem, hq⟩

theorem State.hasTransitions_iff {s : State} :
    s.hasTransitions = true ↔ ∃ symbol q, (symbol, q) ∈ s.edges := by
  simp only [hasTransitions, edges, List.any_eq_true, List.mem_flatMap, List.mem_map]
  constructor
  · intro h
    obtain ⟨⟨symbol, targets⟩, hmem, hsome⟩ := h
    have hne : targets.isEmpty = false := by simpa using hsome
    obtain ⟨q, hq⟩ := List.isEmpty_eq_false_iff_exists_mem.mp hne
    exact ⟨symbol, q, (symbol, targets), hmem, q, hq, rfl⟩
  · intro h
    obtain ⟨symbol, q, ⟨other, targets⟩, hmem, q', hq, _⟩ := h
    refine ⟨(other, targets), hmem, ?_⟩
    have hne := List.isEmpty_eq_false_iff_exists_mem.mpr ⟨q', hq⟩
    simp [hne]

namespace Automaton

/-- An edge on `symbol` leads from the state at `p` to `q`. -/
def HasEdge (a : Automaton) (p : StateId) (symbol : Symbol) (q : StateId) : Prop :=
  ∃ s, a.states[p]? = some s ∧ (symbol, q) ∈ s.edges

/-- An edge leads from `p` to `q`, whatever it consumes. -/
def Leads (a : Automaton) (p q : StateId) : Prop := ∃ symbol, a.HasEdge p symbol q

/-- Any number of edges lead from `p` to `q`. -/
abbrev Reaches (a : Automaton) : StateId → StateId → Prop := ReflTransGen a.Leads

def Closed (a : Automaton) : Prop := ∀ p symbol q, a.HasEdge p symbol q → q < a.size

variable {a : Automaton}

theorem mem_states_iff {s : State} : s ∈ a.states.toList ↔ ∃ id : StateId, a.states[id]? = some s := by
  rw [List.mem_iff_getElem?]
  simp only [Array.getElem?_toList]

theorem hasEdge_iff {id : StateId} {s : State} (hs : a.states[id]? = some s) {symbol : Symbol}
    {q : StateId} : a.HasEdge id symbol q ↔ (symbol, q) ∈ s.edges := by
  unfold HasEdge
  rw [hs]
  simp

theorem closed_iff : a.Closed ↔ ∀ s ∈ a.states.toList, ∀ edge ∈ s.edges, edge.2 < a.size := by
  constructor
  · intro h s hs edge hedge
    obtain ⟨p, hp⟩ := mem_states_iff.mp hs
    exact h p edge.1 edge.2 ⟨s, hp, hedge⟩
  · intro h p symbol q hpq
    obtain ⟨s, hs, hedge⟩ := hpq
    exact h s (mem_states_iff.mpr ⟨p, hs⟩) (symbol, q) hedge

instance (a : Automaton) : Decidable a.Closed := decidable_of_iff _ closed_iff.symm

theorem Closed.lt_of_reaches (h : a.Closed) {p q : StateId} (hp : p < a.size)
    (hreach : a.Reaches p q) : q < a.size := by
  induction hreach with
  | refl => exact hp
  | tail _ hedge _ =>
    obtain ⟨symbol, hedge⟩ := hedge
    exact h _ symbol _ hedge

theorem size_graph (a : Automaton) : a.graph.size = a.size := by simp [graph, Graph.size, size]

theorem edge_graph {p q : StateId} : a.graph.Edge p q ↔ a.Leads p q := by
  unfold Graph.Edge graph Leads HasEdge
  rw [Array.getElem?_map]
  cases a.states[p]? with
  | none => simp
  | some s => simpa using State.mem_successors

theorem edge_graph_eq (a : Automaton) : a.graph.Edge = a.Leads := by
  funext p q
  exact propext edge_graph

theorem reach_graph {p q : StateId} : a.graph.Reach p q ↔ a.Reaches p q := by
  unfold Graph.Reach Reaches
  rw [edge_graph_eq]

theorem Closed.graph (h : a.Closed) : a.graph.Closed := by
  intro p q hedge
  obtain ⟨symbol, hq⟩ := edge_graph.mp hedge
  exact (size_graph a).symm ▸ h p symbol q hq

/-! ## The targets of some symbols -/

theorem mem_targetsOn {keep : Symbol → Bool} {q : StateId} :
    q ∈ a.targetsOn keep ↔ ∃ p symbol, keep symbol = true ∧ a.HasEdge p symbol q := by
  simp only [targetsOn, HasEdge, State.edges, List.mem_flatMap, List.mem_map, Prod.mk.injEq]
  constructor
  · intro h
    obtain ⟨s, hs, ⟨symbol, targets⟩, hmem, hq⟩ := h
    obtain ⟨p, hp⟩ := mem_states_iff.mp hs
    by_cases hkeep : keep symbol = true
    · simp only [hkeep, if_true] at hq
      exact ⟨p, symbol, hkeep, s, hp, (symbol, targets), hmem, q, hq, rfl, rfl⟩
    · simp [hkeep] at hq
  · intro h
    obtain ⟨p, symbol, hkeep, s, hs, ⟨other, targets⟩, hmem, q', hq', rfl, rfl⟩ := h
    refine ⟨s, mem_states_iff.mpr ⟨p, hs⟩, (other, targets), hmem, ?_⟩
    simpa [hkeep] using hq'

theorem foldlM_flag : ∀ (targets : List StateId) (flags : Array Bool),
    (∀ q ∈ targets, q < flags.size) →
    ∃ flags', targets.foldlM flag? flags = some flags' ∧
      ∀ q, flags'.getD q false = true ↔ q ∈ targets ∨ flags.getD q false = true := by
  intro targets
  induction targets with
  | nil => exact fun flags _ => ⟨flags, rfl, by simp⟩
  | cons first rest ih =>
    intro flags hlt
    have hfirst : first < flags.size := hlt first (.head _)
    have hflag : flag? flags first = some (flags.setIfInBounds first true) := if_pos hfirst
    obtain ⟨flags', hfold, hflags⟩ := ih (flags.setIfInBounds first true) fun q hq => by
      rw [Array.size_setIfInBounds]
      exact hlt q (.tail _ hq)
    refine ⟨flags', by rw [List.foldlM_cons, hflag]; exact hfold, fun q => ?_⟩
    rw [hflags, List.mem_cons, Array.getD_eq_getD_getElem?, Array.getElem?_setIfInBounds,
      Array.getD_eq_getD_getElem?]
    by_cases hq : first = q
    · subst hq
      simp [hfirst]
    · simp [hq, Ne.symm hq]

/-- The targets of some symbols, where edges lead to states. -/
theorem targeted_of_closed (h : a.Closed) (keep : Symbol → Bool) :
    ∃ flags, a.targeted? keep = some flags ∧
      ∀ q, flags.getD q false = true ↔ ∃ p symbol, keep symbol = true ∧ a.HasEdge p symbol q := by
  obtain ⟨flags, hfold, hflags⟩ := foldlM_flag (a.targetsOn keep)
    (.replicate a.size false) fun q hq => by
      obtain ⟨p, symbol, _, hedge⟩ := mem_targetsOn.mp hq
      rw [Array.size_replicate]
      exact h p symbol q hedge
  refine ⟨flags, hfold, fun q => ?_⟩
  have hnone : (Array.replicate a.size false).getD q false = false := by
    rw [Array.getD_eq_getD_getElem?, Array.getElem?_replicate]
    split <;> rfl
  rw [hflags, hnone, mem_targetsOn]
  simp

/-- There is a flag for every state. -/
theorem size_targeted {keep : Symbol → Bool} {flags : Array Bool}
    (h : a.targeted? keep = some flags) : flags.size = a.size := by
  have hfold : ∀ (targets : List StateId) (start : Array Bool),
      targets.foldlM flag? start = some flags → flags.size = start.size := by
    intro targets
    induction targets with
    | nil =>
      intro start hstart
      rw [Option.some.inj hstart]
    | cons first rest ih =>
      intro start hstart
      rw [List.foldlM_cons] at hstart
      obtain ⟨next, hnext, hrest⟩ := Option.bind_eq_some_iff.mp hstart
      unfold flag? at hnext
      split at hnext
      · rw [ih next hrest, ← Option.some.inj hnext, Array.size_setIfInBounds]
      · exact absurd hnext (by simp)
  rw [hfold _ _ h, Array.size_replicate]

/-- The epsilon targets of an automaton whose edges lead to states. -/
theorem epsilonTargets_of_closed (h : a.Closed) : ∃ flags, a.epsilonTargets? = some flags ∧
    ∀ q, flags.getD q false = true ↔ ∃ p, a.HasEdge p .epsilon q := by
  obtain ⟨flags, htargets, hflags⟩ := targeted_of_closed h (· == .epsilon)
  refine ⟨flags, htargets, fun q => ?_⟩
  rw [hflags]
  simp

end Automaton

end CaretAutomata

import CaretAutomata.Automaton.Edit
import CaretAutomata.Proofs.Automaton.Wiring

/-!
# Adding edges one after the other

`Automaton.ofEdges` takes a list of edges apart by their sources and groups what every state has by
symbol. This file builds the same automaton by adding edges to an automaton that is there, each to
the state that it starts at (`Automaton.addAll`): a new symbol comes last, and so does a new target
of a symbol (`State.connect`). The two agree (`ofEdges_eq`), and what the additions leave alone can
be read off state by state (`getElem?_addAll`).
-/

namespace CaretAutomata

/-! ## One state -/

namespace State

/-- Adds edges from a state one after the other. -/
def connectAll (s : State) (own : List (Symbol × StateId)) : State :=
  own.foldl (fun s entry => s.connect entry.1 entry.2) s

theorem label_connectAll (s : State) (own : List (Symbol × StateId)) :
    (s.connectAll own).label = s.label := by
  induction own generalizing s with
  | nil => rfl
  | cons entry others ih => exact ih _

theorem accepting_connectAll (s : State) (own : List (Symbol × StateId)) :
    (s.connectAll own).accepting = s.accepting := by
  induction own generalizing s with
  | nil => rfl
  | cons entry others ih => exact ih _

theorem connectAll_append (s : State) (first second : List (Symbol × StateId)) :
    s.connectAll (first ++ second) = (s.connectAll first).connectAll second :=
  List.foldl_append

/-- A target behind those that are there, unless it is one of them. -/
def addTarget (target : StateId) (targets : List StateId) : List StateId :=
  if target ∈ targets then targets else targets ++ [target]

theorem mem_addTarget {target q : StateId} {targets : List StateId} :
    q ∈ addTarget target targets ↔ q ∈ targets ∨ q = target := by
  unfold addTarget
  split
  · next h =>
    constructor
    · exact .inl
    · rintro (hq | rfl)
      · exact hq
      · exact h
  · rw [List.mem_append, List.mem_singleton]

theorem mem_pairs {symbol symbol' : Symbol} {q : StateId} {targets : List StateId} :
    (symbol', q) ∈ targets.map (symbol, ·) ↔ symbol' = symbol ∧ q ∈ targets := by
  simp only [List.mem_map, Prod.mk.injEq]
  constructor
  · rintro ⟨_, hq, rfl, rfl⟩
    exact ⟨rfl, hq⟩
  · rintro ⟨rfl, hq⟩
    exact ⟨q, hq, rfl, rfl⟩

/-- A state has the edges that it had, and the one that was added. -/
theorem mem_edges_connect {s : State} {symbol symbol' : Symbol} {target q : StateId} :
    (symbol', q) ∈ (s.connect symbol target).edges ↔
      (symbol', q) ∈ s.edges ∨ symbol' = symbol ∧ q = target := by
  obtain ⟨label, accepting, transitions⟩ := s
  show (symbol', q) ∈ (alterTargets.go symbol (addTarget target) transitions).flatMap _ ↔
    (symbol', q) ∈ transitions.flatMap _ ∨ _
  induction transitions with
  | nil =>
    rw [alterTargets.go, List.flatMap_singleton, mem_pairs, mem_addTarget]
    simp
  | cons entry others ih =>
    obtain ⟨other, targets⟩ := entry
    rw [alterTargets.go]
    split
    · next hsame =>
      subst hsame
      rw [List.flatMap_cons, List.flatMap_cons, List.mem_append, List.mem_append, mem_pairs,
        mem_pairs, mem_addTarget, and_or_left]
      exact or_right_comm
    · rw [List.flatMap_cons, List.flatMap_cons, List.mem_append, List.mem_append, ih, or_assoc]

theorem mem_edges_connectAll {own : List (Symbol × StateId)} {s : State} {symbol : Symbol}
    {q : StateId} : (symbol, q) ∈ (s.connectAll own).edges ↔
      (symbol, q) ∈ s.edges ∨ (symbol, q) ∈ own := by
  induction own generalizing s with
  | nil => simp [connectAll]
  | cons entry others ih =>
    obtain ⟨symbol', target⟩ := entry
    have hstep : s.connectAll ((symbol', target) :: others) =
        (s.connect symbol' target).connectAll others := rfl
    rw [hstep, ih, mem_edges_connect, List.mem_cons, Prod.mk.injEq, or_assoc]

end State

/-! ## Grouping as edges come in -/

section Grouping

variable {own : List (Symbol × StateId)} {symbol : Symbol} {target : StateId}

theorem distinct_concat {α : Type} [BEq α] [Hashable α] [LawfulBEq α] (l : List α) (x : α)
    [Decidable (x ∈ l)] :
    Arrival.distinct (l ++ [x]) =
      if x ∈ l then Arrival.distinct l else Arrival.distinct l ++ [x] := by
  rw [Arrival.distinct_append]
  split
  · next h => simp [List.removeAll, h]
  · next h => simp [List.removeAll, h, Arrival.distinct_cons]

/-- One of several entries is changed, or a new one comes last. -/
theorem alterTargets_go_map (symbol : Symbol) (f : List StateId → List StateId)
    (targets : Symbol → List StateId) (symbols : List Symbol) (h : symbols.Nodup) :
    State.alterTargets.go symbol f (symbols.map fun key => (key, targets key)) =
      if symbol ∈ symbols then
        symbols.map fun key => (key, if key = symbol then f (targets key) else targets key)
      else (symbols.map fun key => (key, targets key)) ++ [(symbol, f [])] := by
  induction symbols with
  | nil => rfl
  | cons key others ih =>
    obtain ⟨hkey, hothers⟩ := List.nodup_cons.mp h
    rw [List.map_cons, State.alterTargets.go]
    split
    · next hsame =>
      subst hsame
      rw [if_pos (.head _), List.map_cons, if_pos rfl]
      congr 1
      apply List.map_congr_left
      intro other hother
      rw [if_neg]
      rintro rfl
      exact hkey hother
    · next hne =>
      rw [ih hothers]
      by_cases hmem : symbol ∈ others
      · rw [if_pos hmem, if_pos (.tail _ hmem), List.map_cons, if_neg hne]
      · rw [if_neg hmem, if_neg fun h => (List.mem_cons.mp h).elim (fun h => hne h.symm) hmem]
        rfl

theorem distinct_concat_target (targets : List StateId) (target : StateId) :
    Arrival.distinct (targets ++ [target]) =
      State.addTarget target (Arrival.distinct targets) := by
  rw [distinct_concat, State.addTarget]
  simp only [Arrival.mem_distinct]

/-- The targets on a symbol, with repetitions. -/
def targetsOf (own : List (Symbol × StateId)) (key : Symbol) : List StateId :=
  (own.filter (·.1 == key)).map Prod.snd

theorem transitionsOf_eq (own : List (Symbol × StateId)) : Automaton.transitionsOf own =
    (Arrival.distinct (own.map Prod.fst)).map fun key =>
      (key, Arrival.distinct (targetsOf own key)) := by
  rw [Automaton.transitionsOf, Arrival.group_eq, List.map_map]
  rfl

theorem targetsOf_concat (own : List (Symbol × StateId)) (symbol : Symbol) (target : StateId)
    (key : Symbol) : targetsOf (own ++ [(symbol, target)]) key =
      if key = symbol then targetsOf own key ++ [target] else targetsOf own key := by
  rw [targetsOf, List.filter_append, List.map_append]
  split
  · next hsame => simp [targetsOf, hsame]
  · next hne => simp [targetsOf, Ne.symm hne]

theorem targetsOf_of_not_mem {key : Symbol} (h : key ∉ own.map Prod.fst) :
    targetsOf own key = [] := by
  rw [targetsOf, List.map_eq_nil_iff, List.filter_eq_nil_iff]
  intro entry hentry hsame
  exact h (List.mem_map.mpr ⟨entry, hentry, eq_of_beq hsame⟩)

/-- **The transitions of a state grow by one edge as `State.connect` says.** -/
theorem transitionsOf_concat (own : List (Symbol × StateId)) (symbol : Symbol) (target : StateId) :
    Automaton.transitionsOf (own ++ [(symbol, target)]) =
      State.alterTargets.go symbol (State.addTarget target) (Automaton.transitionsOf own) := by
  rw [transitionsOf_eq, transitionsOf_eq, alterTargets_go_map _ _ _ _ (Arrival.nodup_distinct _),
    List.map_append, List.map_singleton, distinct_concat]
  by_cases hmem : symbol ∈ own.map Prod.fst
  · rw [if_pos hmem, if_pos (Arrival.mem_distinct.mpr hmem)]
    apply List.map_congr_left
    intro key _
    rw [targetsOf_concat]
    split
    · rw [distinct_concat_target]
    · rfl
  · rw [if_neg hmem, if_neg fun h => hmem (Arrival.mem_distinct.mp h), List.map_append,
      List.map_singleton, targetsOf_concat, if_pos rfl, targetsOf_of_not_mem hmem]
    congr 1
    · apply List.map_congr_left
      intro key hkey
      rw [targetsOf_concat, if_neg]
      rintro rfl
      exact hmem (Arrival.mem_distinct.mp hkey)
    · rw [distinct_concat_target]
      rfl

/-- A state that has no edges yet is given all of its own. -/
theorem connectAll_blank (label : String) (own : List (Symbol × StateId)) :
    ({ label } : State).connectAll own = { label, transitions := Automaton.transitionsOf own } := by
  induction own using List.reverseRecOn with
  | nil => rfl
  | append_singleton own entry ih =>
    rw [State.connectAll_append, ih, transitionsOf_concat]
    rfl

end Grouping

/-! ## Automata -/

namespace Automaton

/-- Adds edges one after the other. What starts at a state that is not there is left out. -/
def addAll (a : Automaton) (edges : List Edge) : Automaton :=
  edges.foldl (fun a e => ⟨a.states.modify e.source (·.connect e.symbol e.target)⟩) a

/-- Adds edges one after the other, each from a state that is there. -/
def addAll? (a : Automaton) (edges : List Edge) : Option Automaton :=
  edges.foldlM (fun a e => a.edit? e.source (·.connect e.symbol e.target)) a

variable {a : Automaton} {edges : List Edge}

@[simp]
theorem size_addAll (a : Automaton) (edges : List Edge) : (a.addAll edges).size = a.size := by
  induction edges generalizing a with
  | nil => rfl
  | cons e others ih => exact (ih _).trans Array.size_modify

/-- Where all sources are there, all edges can be added. -/
theorem addAll?_eq (h : ∀ e ∈ edges, e.source < a.size) :
    a.addAll? edges = some (a.addAll edges) := by
  induction edges generalizing a with
  | nil => rfl
  | cons e others ih =>
    have hedit : a.edit? e.source (·.connect e.symbol e.target) =
        some ⟨a.states.modify e.source (·.connect e.symbol e.target)⟩ :=
      if_pos (h e (.head _))
    rw [addAll?, List.foldlM_cons, hedit]
    apply ih
    intro other hother
    rw [size, Array.size_modify]
    exact h other (.tail _ hother)

theorem addAll?_append (a : Automaton) (first second : List Edge) :
    a.addAll? (first ++ second) = (a.addAll? first).bind fun b => b.addAll? second :=
  List.foldlM_append

/-- Edges that can be added are added. -/
theorem eq_of_addAll? {b : Automaton} (h : a.addAll? edges = some b) : b = a.addAll edges := by
  induction edges generalizing a with
  | nil => exact (Option.some.inj h).symm
  | cons e others ih =>
    rw [addAll?, List.foldlM_cons] at h
    obtain ⟨c, hedit, hothers⟩ := Option.bind_eq_some_iff.mp h
    by_cases he : e.source < a.size
    · rw [edit?, if_pos he] at hedit
      obtain rfl := Option.some.inj hedit
      exact ih hothers
    · rw [edit?, if_neg he] at hedit
      exact absurd hedit (Option.some_ne_none _).symm

/-- Every state has the edges added that start at it. -/
theorem getElem?_addAll (a : Automaton) (edges : List Edge) (id : StateId) :
    (a.addAll edges).states[id]? = a.states[id]?.map fun s =>
      s.connectAll ((edges.filter (·.source == id)).map fun e => (e.symbol, e.target)) := by
  induction edges generalizing a with
  | nil => simp [addAll, State.connectAll]
  | cons e others ih =>
    have hstep : a.addAll (e :: others) =
        addAll ⟨a.states.modify e.source (·.connect e.symbol e.target)⟩ others := rfl
    rw [hstep, ih, Array.getElem?_modify]
    by_cases hs : e.source = id
    · rw [if_pos hs, Option.map_map, List.filter_cons_of_pos (by simpa using hs), List.map_cons]
      rfl
    · rw [if_neg hs, List.filter_cons_of_neg (by simpa using hs)]

/-- **An automaton is that of its edges, added one after the other** to states without any. -/
theorem ofEdges_eq (count : Nat) (edges : List Edge) :
    ofEdges count edges = (blank count).addAll edges := by
  have hstates : (ofEdges count edges).states = ((blank count).addAll edges).states := by
    apply Array.ext_getElem?
    intro id
    rw [getElem?_addAll, ofEdges, Array.getElem?_mapIdx]
    by_cases hid : id < count
    · have hblank : (blank count).states[id]? = some { label := defaultLabel id } := by
        simp [blank, hid]
      rw [getElem?_edgesBySource edges hid, hblank, Option.map_some, Option.map_some]
      exact congrArg some (connectAll_blank _ _).symm
    · have hnone : (edgesBySource count edges)[id]? = none := by
        rw [Array.getElem?_eq_none_iff, size_edgesBySource]
        exact Nat.not_lt.mp hid
      have hblank : (blank count).states[id]? = none := by simp [blank, hid]
      rw [hnone, hblank]
      rfl
  exact congrArg Automaton.mk hstates

theorem hasEdge_addAll {p q : StateId} {symbol : Symbol} : (a.addAll edges).HasEdge p symbol q ↔
    a.HasEdge p symbol q ∨ p < a.size ∧ ⟨p, symbol, q⟩ ∈ edges := by
  unfold HasEdge
  rw [getElem?_addAll]
  by_cases hp : p < a.size
  · have hstate : a.states[p]? = some a.states[p] := Array.getElem?_eq_getElem hp
    have hown : (symbol, q) ∈ (edges.filter (·.source == p)).map (fun e => (e.symbol, e.target)) ↔
        ⟨p, symbol, q⟩ ∈ edges := by
      simp only [List.mem_map, List.mem_filter, beq_iff_eq, Prod.mk.injEq]
      constructor
      · rintro ⟨⟨_, _, _⟩, ⟨hmem, rfl⟩, rfl, rfl⟩
        exact hmem
      · intro hmem
        exact ⟨_, ⟨hmem, rfl⟩, rfl, rfl⟩
    rw [hstate]
    simp [State.mem_edges_connectAll, hown, hp]
  · have hstate : a.states[p]? = none := Array.getElem?_eq_none (Nat.not_lt.mp hp)
    simp [hstate, hp]

end Automaton

end CaretAutomata

import CaretAutomata.Proofs.Automaton.Acceptance
import CaretAutomata.Proofs.Automaton.Direction
import CaretAutomata.Rendering

/-!
# Automata that can be read back

What a table or a flowchart shows of an automaton is names and symbols, and neither of them says all
by itself: a state is known by its label and its mark together, a map of transitions by the edges in
it, and a symbol that is shown as `ε` may be the character or no character at all. `Legible` is what
makes up for that. States have the labels of their positions, no map has two entries for a symbol or
one without targets, and an edge consumes nothing exactly if it leads back, so its ends tell the two
symbols apart. Every pattern gives such an automaton (`legible_of_compile`).
-/

namespace CaretAutomata

/-! ## Names -/

theorem defaultLabel_injective : ∀ {i j : StateId}, defaultLabel i = defaultLabel j → i = j
  | 0, 0, _ => rfl
  | 0, j + 1, h => absurd (congrArg String.toList h) (by simp [defaultLabel])
  | i + 1, 0, h => absurd (congrArg String.toList h) (by simp [defaultLabel])
  | i + 1, j + 1, h => by
    have htail := congrArg String.toList h
    rw [defaultLabel, defaultLabel, String.toList_append, String.toList_append] at htail
    have hdigits := List.append_cancel_left htail
    rw [Nat.toString_eq_repr, Nat.toString_eq_repr, Nat.toList_repr, Nat.toList_repr] at hdigits
    have hnumber := congrArg (Nat.ofDigitChars 10 · 0) hdigits
    simpa using hnumber

/-- A label holds no bracket and no star. -/
theorem not_mem_defaultLabel {c : Char} (hs : c ≠ 's') (hq : c ≠ 'q') (hdigit : c.isDigit = false) :
    ∀ id : StateId, c ∉ (defaultLabel id).toList
  | 0 => by simp [defaultLabel, hs]
  | i + 1 => by
    intro h
    rw [defaultLabel, String.toList_append, Nat.toString_eq_repr, Nat.toList_repr] at h
    rcases List.mem_append.mp h with h | h
    · exact hq (List.mem_singleton.mp h)
    · exact absurd (Nat.isDigit_of_mem_toDigits (by decide) (by decide) h) (by simp [hdigit])

namespace State

variable {s s' : State} {i j : StateId}

theorem toList_name (s : State) :
    s.name.toList = if s.accepting then '*' :: s.label.toList else s.label.toList := by
  rw [name]
  split <;> simp

/-- A name holds no character but letters of labels, digits and the star. -/
theorem not_mem_name {c : Char} (hs : c ≠ 's') (hq : c ≠ 'q') (hdigit : c.isDigit = false)
    (hstar : c ≠ '*') (hi : s.label = defaultLabel i) : c ∉ s.name.toList := by
  have hlabel : c ∉ s.label.toList := hi ▸ not_mem_defaultLabel hs hq hdigit i
  rw [toList_name]
  split
  · exact fun hmem => hlabel (List.mem_of_ne_of_mem hstar hmem)
  · exact hlabel

/-- The mark and the position can both be read off a name. -/
theorem eq_of_name_eq (hi : s.label = defaultLabel i) (hj : s'.label = defaultLabel j)
    (h : s.name = s'.name) : i = j ∧ s.accepting = s'.accepting := by
  have hstar : ∀ id : StateId, '*' ∉ (defaultLabel id).toList :=
    not_mem_defaultLabel (by decide) (by decide) (by decide)
  have hlist := congrArg String.toList h
  rw [toList_name, toList_name, hi, hj] at hlist
  cases hs : s.accepting <;> cases hs' : s'.accepting <;>
    simp only [hs, hs', if_true, Bool.false_eq_true, if_false] at hlist
  · exact ⟨defaultLabel_injective (String.toList_inj.mp hlist), rfl⟩
  · exact absurd (hlist ▸ List.mem_cons_self) (hstar i)
  · exact absurd (hlist.symm ▸ List.mem_cons_self) (hstar j)
  · exact ⟨defaultLabel_injective (String.toList_inj.mp (List.cons.inj hlist).2), rfl⟩

end State

/-- The character that a symbol is shown as. -/
def Symbol.shown : Symbol → Char
  | .char c => c
  | .epsilon => 'ε'

theorem Symbol.text_eq (symbol : Symbol) : symbol.text = symbol.shown.toString := by
  cases symbol <;> rfl

namespace Automaton

variable {a : Automaton}

/-- The name of the state at a position. -/
def nameOf (a : Automaton) (id : StateId) : String := (a.name? id).getD ""

theorem nameOf_eq {id : StateId} {s : State} (hs : a.states[id]? = some s) :
    a.nameOf id = s.name := by
  rw [nameOf, name?, hs]
  rfl

end Automaton

/-! ## Maps of transitions -/

/-- The list is a map: it has one entry for each symbol, and none without targets. -/
structure Keyed (transitions : List (Symbol × List StateId)) : Prop where
  nodup : (transitions.map Prod.fst).Nodup
  nonempty : ∀ entry ∈ transitions, entry.2 ≠ []

/-- The edges of a map of transitions. -/
def edgesOf (transitions : List (Symbol × List StateId)) : List (Symbol × StateId) :=
  transitions.flatMap fun (symbol, targets) => targets.map (symbol, ·)

theorem edgesOf_cons (symbol : Symbol) (targets : List StateId)
    (others : List (Symbol × List StateId)) :
    edgesOf ((symbol, targets) :: others) = targets.map (symbol, ·) ++ edgesOf others := rfl

namespace Keyed

variable {symbol : Symbol} {targets : List StateId}
  {others transitions transitions' : List (Symbol × List StateId)}

theorem tail (h : Keyed ((symbol, targets) :: others)) : Keyed others :=
  ⟨(List.nodup_cons.mp h.nodup).2, fun entry hentry => h.nonempty entry (.tail _ hentry)⟩

/-- All edges on the first symbol are those of the first entry. -/
theorem filter_edgesOf (h : Keyed ((symbol, targets) :: others)) :
    (edgesOf ((symbol, targets) :: others)).filter (·.1 == symbol) = targets.map (symbol, ·) := by
  have hothers : (edgesOf others).filter (·.1 == symbol) = [] := by
    rw [List.filter_eq_nil_iff]
    intro edge hedge hsymbol
    obtain ⟨entry, hentry, hmem⟩ := List.mem_flatMap.mp hedge
    obtain ⟨target, -, rfl⟩ := List.mem_map.mp hmem
    have hkey : entry.1 = symbol := by simpa using hsymbol
    exact (List.nodup_cons.mp h.nodup).1 (List.mem_map.mpr ⟨entry, hentry, hkey⟩)
  have hfirst : (targets.map (symbol, ·)).filter (·.1 == symbol) = targets.map (symbol, ·) := by
    rw [List.filter_eq_self]
    intro edge hedge
    obtain ⟨target, -, rfl⟩ := List.mem_map.mp hedge
    exact beq_self_eq_true symbol
  rw [edgesOf_cons, List.filter_append, hothers, hfirst, List.append_nil]

theorem edgesOf_cons_ne_nil (h : Keyed ((symbol, targets) :: others)) :
    edgesOf ((symbol, targets) :: others) ≠ [] := by
  have hne := h.nonempty _ (.head _)
  rw [edgesOf_cons]
  simp [hne]

/-- **A map can be put together again from its edges.** -/
theorem eq_of_edgesOf_eq : ∀ {transitions transitions' : List (Symbol × List StateId)},
    Keyed transitions → Keyed transitions' → edgesOf transitions = edgesOf transitions' →
    transitions = transitions'
  | [], [], _, _, _ => rfl
  | [], _ :: _, _, h', heq => absurd heq.symm h'.edgesOf_cons_ne_nil
  | _ :: _, [], h, _, heq => absurd heq h.edgesOf_cons_ne_nil
  | (symbol, targets) :: others, (symbol', targets') :: others', h, h', heq => by
    -- the first edge says which symbol comes first
    have hsymbol : symbol = symbol' := by
      have hne := h.nonempty _ (.head _)
      have hne' := h'.nonempty _ (.head _)
      cases targets with
      | nil => exact absurd rfl hne
      | cons target rest =>
        cases targets' with
        | nil => exact absurd rfl hne'
        | cons target' rest' => exact (Prod.mk.inj (List.cons.inj heq).1).1
    subst hsymbol
    have htargets : targets = targets' := by
      have hfilter := congrArg (List.filter (·.1 == symbol)) heq
      rw [h.filter_edgesOf, h'.filter_edgesOf] at hfilter
      exact List.map_injective_iff.mpr (fun _ _ hpair => (Prod.mk.inj hpair).2) hfilter
    subst htargets
    rw [edgesOf_cons, edgesOf_cons] at heq
    rw [eq_of_edgesOf_eq h.tail h'.tail (List.append_cancel_left heq)]

end Keyed

theorem Automaton.keyed_transitionsOf (own : List (Symbol × StateId)) : Keyed (transitionsOf own) := by
  rw [transitionsOf, Arrival.group_eq, List.map_map]
  constructor
  · rw [List.map_map]
    simpa [Function.comp_def] using Arrival.nodup_distinct (own.map Prod.fst)
  · intro entry hentry
    obtain ⟨symbol, hsymbol, rfl⟩ := List.mem_map.mp hentry
    obtain ⟨edge, hedge, rfl⟩ := List.mem_map.mp (Arrival.mem_distinct.mp hsymbol)
    refine List.ne_nil_of_mem (a := edge.2) (Arrival.mem_distinct.mpr ?_)
    exact List.mem_map.mpr ⟨edge, List.mem_filter.mpr ⟨hedge, beq_self_eq_true _⟩, rfl⟩

/-! ## Legible automata -/

namespace Automaton

/-- The edges lead to states, the states are labelled by their positions, the transitions are maps,
and an edge consumes nothing exactly if it leads back. -/
structure Legible (a : Automaton) : Prop where
  closed : a.Closed
  label : ∀ (id : StateId) (s : State), a.states[id]? = some s → s.label = defaultLabel id
  keyed : ∀ (id : StateId) (s : State), a.states[id]? = some s → Keyed s.transitions
  back : ∀ p symbol q, a.HasEdge p symbol q → (symbol = .epsilon ↔ q < p)

/-- What a state of a tree's automaton is made of. -/
theorem eq_of_getElem?_ofExtent {e : Extent} {id : StateId} {s : State}
    (hs : (ofExtent e).states[id]? = some s) :
    ∃ own, s = { label := defaultLabel id, transitions := transitionsOf own } := by
  unfold ofExtent ofEdges at hs
  rw [Array.getElem?_mapIdx, Option.map_eq_some_iff] at hs
  obtain ⟨own, -, rfl⟩ := hs
  exact ⟨own, rfl⟩

theorem legible_ofExtent (e : Extent) : (ofExtent e).Legible := by
  refine ⟨closed_ofExtent e, fun id s hs => ?_, fun id s hs => ?_, fun p symbol q => ?_⟩
  · obtain ⟨own, rfl⟩ := eq_of_getElem?_ofExtent hs
    rfl
  · obtain ⟨own, rfl⟩ := eq_of_getElem?_ofExtent hs
    exact keyed_transitionsOf own
  · exact hasEdge_epsilon_iff

/-- Marks change nothing about it. -/
theorem Legible.classify {a : Automaton} (h : a.Legible) : a.classify.Legible := by
  refine ⟨fun p symbol q hedge => ?_, fun id s hs => ?_, fun id s hs => ?_, fun p symbol q hedge => ?_⟩
  · rw [size_classify]
    exact h.closed p symbol q ((hasEdge_classify h.closed).mp hedge)
  · obtain ⟨old, flag, hold, rfl, -⟩ := (getElem?_classify h.closed).mp hs
    exact h.label id old hold
  · obtain ⟨old, flag, hold, rfl, -⟩ := (getElem?_classify h.closed).mp hs
    exact h.keyed id old hold
  · exact h.back p symbol q ((hasEdge_classify h.closed).mp hedge)

theorem legible_single : single.Legible := by
  have hstate : ∀ (id : StateId) (s : State), single.states[id]? = some s → id = 0 ∧ s = { label := "s" } := by
    intro id s hs
    cases id with
    | zero => exact ⟨rfl, (Option.some.inj hs).symm⟩
    | succ i => exact absurd hs (by simp [single, blank])
  have hedge : ∀ p symbol q, ¬ single.HasEdge p symbol q := by
    intro p symbol q h
    obtain ⟨s, hs, hmem⟩ := h
    obtain ⟨-, rfl⟩ := hstate p s hs
    exact absurd hmem (by simp [State.edges])
  refine ⟨fun p symbol q h => absurd h (hedge p symbol q), fun id s hs => ?_, fun id s hs => ?_,
    fun p symbol q h => absurd h (hedge p symbol q)⟩
  · obtain ⟨rfl, rfl⟩ := hstate id s hs
    rfl
  · obtain ⟨-, rfl⟩ := hstate id s hs
    exact ⟨List.nodup_nil, fun entry hentry => absurd hentry (by simp)⟩

section Two

variable {a b : Automaton} (ha : a.Legible) (hb : b.Legible)

include ha hb

/-- A name gives the position of its state and its mark. -/
theorem Legible.eq_of_name_eq {i j : StateId} {s s' : State} (hs : a.states[i]? = some s)
    (hs' : b.states[j]? = some s') (h : s.name = s'.name) :
    i = j ∧ s.accepting = s'.accepting :=
  State.eq_of_name_eq (ha.label i s hs) (hb.label j s' hs') h

/-- An edge can be read off its symbol as it is shown and the names of its ends: these say whether
it leads back. -/
theorem Legible.edge_eq_of_shown_eq {p q q' : StateId} {symbol symbol' : Symbol}
    (hedge : a.HasEdge p symbol q) (hedge' : b.HasEdge p symbol' q')
    (hshown : symbol.shown = symbol'.shown) (hname : a.nameOf q = b.nameOf q') :
    symbol = symbol' ∧ q = q' := by
  have hs := Array.getElem?_eq_getElem (ha.closed p symbol q hedge)
  have hs' := Array.getElem?_eq_getElem (hb.closed p symbol' q' hedge')
  rw [nameOf_eq hs, nameOf_eq hs'] at hname
  obtain ⟨rfl, -⟩ := ha.eq_of_name_eq hb hs hs' hname
  have hback : symbol = .epsilon ↔ symbol' = .epsilon := by
    rw [ha.back p symbol q hedge, hb.back p symbol' q hedge']
  refine ⟨?_, rfl⟩
  cases symbol with
  | epsilon => exact (hback.mp rfl).symm
  | char c =>
    cases symbol' with
    | epsilon => exact absurd (hback.mpr rfl) (by simp)
    | char c' => exact congrArg Symbol.char hshown

end Two

end Automaton

/-- **The automaton of every pattern is legible**, that of the empty pattern too. -/
theorem legible_of_compile {limits : Pattern.Limits} {pattern : String} {a : Automaton}
    (h : compile limits pattern = .ok a) : a.Legible := by
  by_cases hne : pattern = ""
  · rw [hne, compile_empty] at h
    exact Except.ok.inj h ▸ Automaton.legible_single
  · obtain ⟨t, -, rfl⟩ := parse_of_compile hne h
    exact (Automaton.legible_ofExtent t).classify

/-- The automaton of a pattern has a start state. -/
theorem size_pos_of_compile {limits : Pattern.Limits} {pattern : String} {a : Automaton}
    (h : compile limits pattern = .ok a) : 0 < a.size := by
  by_cases hne : pattern = ""
  · rw [hne, compile_empty] at h
    exact Except.ok.inj h ▸ Nat.succ_pos 0
  · obtain ⟨t, -, rfl⟩ := parse_of_compile hne h
    rw [Extent.compile, Automaton.size_classify, Automaton.size_ofExtent]
    exact Nat.succ_pos _

end CaretAutomata

import CaretAutomata.Automaton.Wiring
import CaretAutomata.Proofs.Automaton.Runs
import CaretAutomata.Proofs.Extent.Positions

/-!
# Character edges and exits

`wire` threads three lists through the tree, and the lists that come out are full of repetitions and
in an order of their own. What they *hold* is simple, and the two theorems of this file say it for
every part, wherever it stands:

* a part is consumed at its last leaves, and at its starters if it can be skipped
  (`mem_exits_wire`);
* its edges on characters lead from its starters to its first leaves, and from a leaf to those that
  follow it (`char_edge_wire`).

The repeaters matter to neither. For a whole tree the starter is the start state alone, and
`hasEdge_char` and `mem_exits_wiring` restate the two about the automaton.
-/

namespace CaretAutomata

open Positions

namespace Extent

theorem mem_enter {S : List StateId} {c : Char} {n : Nat} {e : Edge} :
    e ∈ enter S c n ↔ e.source ∈ S ∧ e.symbol = .char c ∧ e.target = n := by
  obtain ⟨p, symbol, q⟩ := e
  simp only [enter, List.mem_map, Edge.mk.injEq]
  constructor
  · intro h
    obtain ⟨_, hp, rfl, rfl, rfl⟩ := h
    exact ⟨hp, rfl, rfl⟩
  · intro h
    obtain ⟨hp, rfl, rfl⟩ := h
    exact ⟨p, hp, rfl, rfl, rfl⟩

theorem not_mem_loopBack {R : List StateId} {p q n : StateId} {c : Char} :
    (⟨p, .char c, q⟩ : Edge) ∉ loopBack n R := by
  simp [loopBack]

/-- What the wiring of a repetition adds to that of its body, unless the body is a character. -/
theorem wire_repetition {body : Extent} (h : body.isLeaf = false) (n : Nat)
    (S R : List StateId) : (repetition body).wire n S R =
      ⟨(body.wire n S (Arrival.merge R S)).edges,
        Arrival.merge (body.wire n S (Arrival.merge R S)).exits S⟩ := by
  cases body with
  | leaf c => exact absurd h (by simp [isLeaf])
  | concatenation parts => rfl
  | union alternatives => rfl
  | repetition body => rfl

theorem exists_leaf_of_isLeaf {e : Extent} (h : e.isLeaf = true) : ∃ c, e = leaf c := by
  cases e with
  | leaf c => exact ⟨c, rfl⟩
  | concatenation parts => exact absurd h (by simp [isLeaf])
  | union alternatives => exact absurd h (by simp [isLeaf])
  | repetition body => exact absurd h (by simp [isLeaf])

/-! ## Exits -/

mutual

theorem mem_exits_wire : ∀ (e : Extent) (n : Nat) (S R : List StateId) (x : StateId),
    x ∈ (e.wire n S R).exits ↔
      x ∈ (e.positions n).last ∨ (e.positions n).nullable = true ∧ x ∈ S
  | leaf _, n, S, R, x => by simp [wire, positions, single]
  | concatenation parts, n, S, R, x => mem_exits_wireParts parts n S R x
  | union alternatives, n, S, R, x => by
    rw [wire, Arrival.mem_distinct]
    exact mem_exits_wireAlternatives alternatives n S R x
  | repetition body, n, S, R, x => by
    have hbody := mem_exits_wire body n S (Arrival.merge R S) x
    cases hleaf : body.isLeaf with
    | true =>
      obtain ⟨c, rfl⟩ := exists_leaf_of_isLeaf hleaf
      simp [wire, positions, single, loop]
    | false =>
      have hpositions := positions_repetition body n
      rw [hleaf] at hpositions
      rw [wire_repetition hleaf, hpositions, Arrival.mem_merge, hbody]
      show _ ↔ x ∈ (body.positions n).last ∨ true = true ∧ x ∈ S
      by_cases hx : x ∈ S <;> simp [hx]

theorem mem_exits_wireParts : ∀ (es : List Extent) (n : Nat) (S R : List StateId) (x : StateId),
    x ∈ (wireParts es n S R).exits ↔
      x ∈ (positionsParts es n).last ∨ (positionsParts es n).nullable = true ∧ x ∈ S
  | [], n, S, R, x => by simp [wireParts, positionsParts, skip]
  -- the last part is wired by itself, the positions put it before nothing
  | [last], n, S, R, x => by
    have hlast := mem_exits_wire last n S R x
    simpa [wireParts, positionsParts, before, skip] using hlast
  | e :: e' :: others, n, S, R, x => by
    have hfirst := mem_exits_wire e n S [] x
    have hrest := mem_exits_wireParts (e' :: others) (n + e.leafCount) (e.wire n S []).exits R x
    rw [positionsParts, mem_last_before, nullable_before, wireParts, hrest, hfirst]
    · rw [and_or_left, or_assoc, and_assoc, and_left_comm]
    · simp

theorem mem_exits_wireAlternatives : ∀ (es : List Extent) (n : Nat) (S R : List StateId)
    (x : StateId), x ∈ (wireAlternatives es n S R).exits ↔
      x ∈ (positionsAlternatives es n).last ∨ (positionsAlternatives es n).nullable = true ∧ x ∈ S
  | [], n, S, R, x => by simp [wireAlternatives, positionsAlternatives, never]
  | e :: others, n, S, R, x => by
    have hfirst := mem_exits_wire e n S R x
    have hrest := mem_exits_wireAlternatives others (n + e.leafCount) S R x
    simp only [wireAlternatives, positionsAlternatives, either, List.mem_append, Bool.or_eq_true]
    rw [hfirst, hrest, or_and_right, or_or_or_comm]

end

/-! ## Edges on characters -/

/-- The exits of a part are the starters of what comes behind it. -/
theorem enters_before {P Q : Positions} {S : List StateId} {p q : StateId} :
    (p ∈ S ∧ q ∈ P.first ∨ P.Follows p q) ∨
      ((p ∈ P.last ∨ P.nullable = true ∧ p ∈ S) ∧ q ∈ Q.first ∨ Q.Follows p q) ↔
    p ∈ S ∧ q ∈ (P.before Q).first ∨ (P.before Q).Follows p q := by
  rw [mem_first_before]
  unfold Follows
  rw [mem_follow_before]
  constructor
  · intro h
    rcases h with (⟨hp, hq⟩ | h) | ⟨hp | ⟨hnull, hp⟩, hq⟩ | h
    · exact .inl ⟨hp, .inl hq⟩
    · exact .inr (.inl h)
    · exact .inr (.inr (.inr ⟨hp, hq⟩))
    · exact .inl ⟨hp, .inr ⟨hnull, hq⟩⟩
    · exact .inr (.inr (.inl h))
  · intro h
    rcases h with ⟨hp, hq | ⟨hnull, hq⟩⟩ | h | h | ⟨hp, hq⟩
    · exact .inl (.inl ⟨hp, hq⟩)
    · exact .inr (.inl ⟨.inr ⟨hnull, hp⟩, hq⟩)
    · exact .inl (.inr h)
    · exact .inr (.inr h)
    · exact .inr (.inl ⟨.inl hp, hq⟩)

mutual

theorem char_edge_wire {letter : StateId → Char} : ∀ (e : Extent) (n : Nat) (S R : List StateId)
    (p : StateId) (c : Char) (q : StateId), e.Lettered letter n →
    (⟨p, .char c, q⟩ ∈ (e.wire n S R).edges ↔
      (p ∈ S ∧ q ∈ (e.positions n).first ∨ (e.positions n).Follows p q) ∧ letter q = c)
  | leaf d, n, S, R, p, c, q, h => by
    have hletter : letter n = d := h
    rw [wire, List.mem_append, mem_enter]
    simp only [not_mem_loopBack, or_false, positions, single, Follows, List.mem_singleton,
      List.not_mem_nil, Symbol.char.injEq]
    constructor
    · intro h
      obtain ⟨hp, rfl, rfl⟩ := h
      exact ⟨⟨hp, rfl⟩, hletter⟩
    · intro h
      obtain ⟨⟨hp, rfl⟩, rfl⟩ := h
      exact ⟨hp, hletter, rfl⟩
  | concatenation parts, n, S, R, p, c, q, h => char_edge_wireParts parts n S R p c q h
  | union alternatives, n, S, R, p, c, q, h =>
    char_edge_wireAlternatives alternatives n S R p c q h
  | repetition body, n, S, R, p, c, q, h => by
    have hbody := char_edge_wire body n S (Arrival.merge R S) p c q h
    cases hleaf : body.isLeaf with
    | true =>
      obtain ⟨d, rfl⟩ := exists_leaf_of_isLeaf hleaf
      have hletter : letter n = d := h
      simp only [wire, List.mem_append, mem_enter, List.mem_cons, not_mem_loopBack, or_false,
        positions, single, loop, Follows, List.mem_product, List.not_mem_nil, false_or,
        Symbol.char.injEq, Edge.mk.injEq]
      constructor
      · intro h
        rcases h with ⟨hp, rfl, rfl⟩ | ⟨rfl, rfl, rfl⟩
        · exact ⟨.inl ⟨hp, rfl⟩, hletter⟩
        · exact ⟨.inr ⟨rfl, rfl⟩, hletter⟩
      · intro h
        obtain ⟨⟨hp, rfl⟩ | ⟨rfl, rfl⟩, rfl⟩ := h
        · exact .inl ⟨hp, hletter, rfl⟩
        · exact .inr ⟨rfl, hletter, rfl⟩
    | false =>
      have hpositions := positions_repetition body n
      rw [hleaf] at hpositions
      rw [wire_repetition hleaf, hpositions, hbody]
      rfl

theorem char_edge_wireParts {letter : StateId → Char} : ∀ (es : List Extent) (n : Nat)
    (S R : List StateId) (p : StateId) (c : Char) (q : StateId), LetteredAll letter es n →
    (⟨p, .char c, q⟩ ∈ (wireParts es n S R).edges ↔
      (p ∈ S ∧ q ∈ (positionsParts es n).first ∨ (positionsParts es n).Follows p q) ∧
        letter q = c)
  | [], n, S, R, p, c, q, _ => by simp [wireParts, positionsParts, skip, Follows]
  | [last], n, S, R, p, c, q, h => by
    have hlast := char_edge_wire last n S R p c q h.1
    simpa [wireParts, positionsParts, before, skip, Follows] using hlast
  | e :: e' :: others, n, S, R, p, c, q, h => by
    have hfirst := char_edge_wire e n S [] p c q h.1
    have hrest := char_edge_wireParts (e' :: others) (n + e.leafCount) (e.wire n S []).exits R
      p c q h.2
    have hexits := mem_exits_wire e n S [] p
    rw [wireParts, List.mem_append, hfirst, hrest, hexits, ← or_and_right]
    · exact and_congr_left fun _ => enters_before
    · simp

theorem char_edge_wireAlternatives {letter : StateId → Char} : ∀ (es : List Extent) (n : Nat)
    (S R : List StateId) (p : StateId) (c : Char) (q : StateId), LetteredAll letter es n →
    (⟨p, .char c, q⟩ ∈ (wireAlternatives es n S R).edges ↔
      (p ∈ S ∧ q ∈ (positionsAlternatives es n).first ∨
        (positionsAlternatives es n).Follows p q) ∧ letter q = c)
  | [], n, S, R, p, c, q, _ => by simp [wireAlternatives, positionsAlternatives, never, Follows]
  | e :: others, n, S, R, p, c, q, h => by
    have hfirst := char_edge_wire e n S R p c q h.1
    have hrest := char_edge_wireAlternatives others (n + e.leafCount) S R p c q h.2
    rw [wireAlternatives, List.mem_append, hfirst, hrest, ← or_and_right]
    simp only [positionsAlternatives, either, Follows, List.mem_append]
    rw [and_or_left, or_or_or_comm]

end

end Extent

/-! ## The automaton of a tree -/

namespace Automaton

theorem mem_transitionsOf {own : List (Symbol × StateId)} {symbol : Symbol} {q : StateId} :
    (∃ targets, (symbol, targets) ∈ transitionsOf own ∧ q ∈ targets) ↔ (symbol, q) ∈ own := by
  unfold transitionsOf
  rw [Arrival.group_eq, List.map_map]
  simp only [List.mem_map, Function.comp_apply, Prod.mk.injEq]
  constructor
  · intro h
    obtain ⟨_, ⟨key, -, rfl, rfl⟩, hq⟩ := h
    rw [Arrival.mem_distinct, List.mem_map] at hq
    obtain ⟨entry, hentry, rfl⟩ := hq
    obtain ⟨hown, hsymbol⟩ := List.mem_filter.mp hentry
    obtain rfl : entry.1 = key := by simpa using hsymbol
    exact hown
  · intro h
    refine ⟨_, ⟨symbol, ?_, rfl, rfl⟩, ?_⟩
    · rw [Arrival.mem_distinct]
      exact List.mem_map.mpr ⟨(symbol, q), h, rfl⟩
    · rw [Arrival.mem_distinct]
      exact List.mem_map.mpr ⟨(symbol, q), List.mem_filter.mpr ⟨h, by simp⟩, rfl⟩

theorem mem_edges_iff {s : State} {symbol : Symbol} {q : StateId} : (symbol, q) ∈ s.edges ↔
    ∃ targets, (symbol, targets) ∈ s.transitions ∧ q ∈ targets := by
  simp only [State.edges, List.mem_flatMap, List.mem_map, Prod.mk.injEq]
  constructor
  · intro h
    obtain ⟨⟨_, targets⟩, hmem, _, hq, rfl, rfl⟩ := h
    exact ⟨targets, hmem, hq⟩
  · intro h
    obtain ⟨targets, hmem, hq⟩ := h
    exact ⟨(symbol, targets), hmem, q, hq, rfl, rfl⟩

theorem hasEdge_ofEdges {count : Nat} {edges : List Edge} {p q : StateId} {symbol : Symbol} :
    (ofEdges count edges).HasEdge p symbol q ↔ p < count ∧ ⟨p, symbol, q⟩ ∈ edges := by
  unfold HasEdge ofEdges
  simp only [Array.getElem?_mapIdx]
  by_cases hp : p < count
  · rw [getElem?_edgesBySource edges hp]
    simp only [Option.map_some, Option.some.injEq, exists_eq_left', mem_edges_iff,
      mem_transitionsOf, List.mem_map, List.mem_filter, beq_iff_eq, Prod.mk.injEq]
    constructor
    · intro h
      obtain ⟨⟨_, _, _⟩, ⟨hmem, rfl⟩, rfl, rfl⟩ := h
      exact ⟨hp, hmem⟩
    · intro h
      obtain ⟨_, hmem⟩ := h
      exact ⟨_, ⟨hmem, rfl⟩, rfl, rfl⟩
  · have hnone : (edgesBySource count edges)[p]? = none := by
      rw [Array.getElem?_eq_none_iff, size_edgesBySource]
      exact Nat.not_lt.mp hp
    rw [hnone]
    simp [hp]

variable {e : Extent} {p q x : StateId}

theorem hasEdge_ofExtent {symbol : Symbol} : (ofExtent e).HasEdge p symbol q ↔
    p < e.leafCount + 1 ∧ ⟨p, symbol, q⟩ ∈ e.wiring.edges :=
  hasEdge_ofEdges

theorem hasEdge_char {c : Char} : (ofExtent e).HasEdge p (.char c) q ↔
    (p = 0 ∧ q ∈ (e.positions 1).first ∨ (e.positions 1).Follows p q) ∧ e.letter q = c := by
  have hwire := e.char_edge_wire 1 [0] [] p c q e.lettered_letter
  rw [hasEdge_ofExtent, Extent.wiring, hwire, List.mem_singleton]
  refine and_iff_right_of_imp ?_
  intro h
  obtain ⟨⟨rfl, _⟩ | h, _⟩ := h
  · exact Nat.succ_pos _
  · have hlt := ((e.within_positions 1).links p q (.inl h)).1.2
    rwa [Nat.add_comm] at hlt

/-- A character is read into a first leaf from the start, and into any other from one that it
follows. -/
theorem reads_iff : (ofExtent e).Reads p q ↔
    p = 0 ∧ q ∈ (e.positions 1).first ∨ (e.positions 1).Follows p q := by
  unfold Reads
  simp only [hasEdge_char]
  exact ⟨fun ⟨_, h, _⟩ => h, fun h => ⟨_, h, rfl⟩⟩

theorem mem_exits_wiring : x ∈ e.wiring.exits ↔
    x ∈ (e.positions 1).last ∨ (e.positions 1).nullable = true ∧ x = 0 := by
  rw [Extent.wiring, Extent.mem_exits_wire, List.mem_singleton]

/-- **The automaton has the edges on characters and the exits that the positions of its tree name.**
A first leaf is entered from the start state and any other leaf from those that it follows, on its
own character and on no other; a repeated extent adds no such edge from its end to its beginning.
The exits are the last leaves, and the start state too if the whole tree can be skipped. -/
theorem ofExtent_realises_positions (e : Extent) :
    (∀ p c q, (ofExtent e).HasEdge p (.char c) q ↔
      (p = 0 ∧ q ∈ (e.positions 1).first ∨ (p, q) ∈ (e.positions 1).follow) ∧
        e.characters[q - 1]? = some c) ∧
    ∀ x, x ∈ e.wiring.exits ↔
      x ∈ (e.positions 1).last ∨ x = 0 ∧ (e.positions 1).nullable = true := by
  have hwithin := e.within_positions 1
  refine ⟨fun p c q => ?_, fun x => ?_⟩
  · rw [hasEdge_char]
    refine and_congr_right fun hpq => ?_
    -- what is entered is a leaf, so it has a character
    have hq : 1 ≤ q ∧ q < 1 + e.leafCount := by
      rcases hpq with ⟨-, hq⟩ | hpq
      · exact hwithin.first q hq
      · exact (hwithin.links p q (.inl hpq)).2
    exact Extent.letter_eq_iff hq.1 hq.2
  · rw [mem_exits_wiring, and_comm]

end Automaton

end CaretAutomata

import CaretAutomata.Proofs.Automaton.Wiring

/-!
# Which way edges lead

The states of a tree are numbered as its leaves stand in the text, and no edge can lead just
anywhere. On a character it leads forward, or from a repeated character to itself
(`le_of_hasEdge_char`); without consuming anything it leads strictly back (`lt_of_hasEdge_epsilon`).
So the two kinds of edges can be told apart by their ends alone, whatever is written on them.

Both come from what one part of a tree does. `epsilon_edge_wire` is the half that `char_edge_wire`
leaves out, and like it says what is true wherever the part stands: a silent edge starts at a leaf
of the part, and leads to a repeater, to a starter, or to a leaf in front of it.
-/

namespace CaretAutomata

open Positions

/-! ## Within one round, leaves only follow forward -/

namespace Positions

/-- No leaf follows a later one in the same round. -/
def Forward (P : Positions) : Prop := ∀ x y, P.Follows x y → x ≤ y

theorem Forward.before {P Q : Positions} {a b c : Nat} (hP : P.Forward) (hQ : Q.Forward)
    (hwithinP : P.Within a b) (hwithinQ : Q.Within b c) : (P.before Q).Forward := by
  intro x y hxy
  rcases mem_follow_before.mp hxy with h | h | ⟨hx, hy⟩
  · exact hP x y h
  · exact hQ x y h
  · have hlt := (hwithinP.last x hx).2
    have hle := (hwithinQ.first y hy).1
    omega

theorem Forward.either {P Q : Positions} (hP : P.Forward) (hQ : Q.Forward) :
    (P.either Q).Forward := by
  intro x y hxy
  rcases List.mem_append.mp hxy with h | h
  · exact hP x y h
  · exact hQ x y h

end Positions

namespace Extent

mutual

theorem forward_positions : ∀ (e : Extent) (n : Nat), (e.positions n).Forward
  | leaf _, n => fun x y hxy => absurd hxy (by simp [positions, single, Follows])
  | concatenation parts, n => forward_positionsParts parts n
  | union alternatives, n => forward_positionsAlternatives alternatives n
  | repetition body, n => by
    have hbody := forward_positions body n
    cases hleaf : body.isLeaf with
    | true =>
      -- a repeated character follows itself
      obtain ⟨c, rfl⟩ := exists_leaf_of_isLeaf hleaf
      intro x y hxy
      have hpair : (x, y) ∈ [(n, n)] := hxy
      obtain ⟨rfl, rfl⟩ := Prod.mk.inj (List.mem_singleton.mp hpair)
      exact Nat.le_refl _
    | false =>
      rw [positions_repetition, hleaf]
      exact hbody

theorem forward_positionsParts : ∀ (es : List Extent) (n : Nat), (positionsParts es n).Forward
  | [], n => fun x y hxy => absurd hxy (by simp [positionsParts, skip, Follows])
  | e :: others, n =>
    (forward_positions e n).before (forward_positionsParts others _) (within_positions e n)
      (within_positionsParts others _)

theorem forward_positionsAlternatives : ∀ (es : List Extent) (n : Nat),
    (positionsAlternatives es n).Forward
  | [], n => fun x y hxy => absurd hxy (by simp [positionsAlternatives, never, Follows])
  | e :: others, n => (forward_positions e n).either (forward_positionsAlternatives others _)

end

/-! ## Silent edges -/

theorem not_mem_enter_epsilon {S : List StateId} {c : Char} {n : Nat} {p q : StateId} :
    (⟨p, .epsilon, q⟩ : Edge) ∉ enter S c n := by
  simp [enter]

theorem mem_loopBack_epsilon {R : List StateId} {n : Nat} {p q : StateId} :
    (⟨p, .epsilon, q⟩ : Edge) ∈ loopBack n R ↔ p = n ∧ q ∈ R := by
  simp only [loopBack, List.mem_map, Edge.mk.injEq, true_and]
  constructor
  · intro h
    obtain ⟨_, hq, rfl, rfl⟩ := h
    exact ⟨rfl, hq⟩
  · intro h
    obtain ⟨rfl, hq⟩ := h
    exact ⟨q, hq, rfl, rfl⟩

/-- The exits of a part are its leaves and its starters. -/
theorem exit_cases {e : Extent} {n : Nat} {S R : List StateId} {x : StateId}
    (h : x ∈ (e.wire n S R).exits) : (n ≤ x ∧ x < n + e.leafCount) ∨ x ∈ S := by
  rcases (mem_exits_wire e n S R x).mp h with h | ⟨_, h⟩
  · exact .inl ((within_positions e n).last x h)
  · exact .inr h

/-- Where a silent edge of the leaves from `a` on and below `b` may start, and where it may lead. -/
def LeadsBack (a b : Nat) (S R : List StateId) (p q : Nat) : Prop :=
  (a ≤ p ∧ p < b) ∧ (q ∈ S ∨ q ∈ R ∨ a ≤ q ∧ q < p)

theorem LeadsBack.widen {a b a' b' p q : Nat} {S S' R R' : List StateId}
    (h : LeadsBack a b S R p q) (ha : a' ≤ a) (hb : b ≤ b')
    (hS : ∀ x ∈ S, x ∈ S' ∨ x ∈ R' ∨ a' ≤ x ∧ x < a) (hR : ∀ x ∈ R, x ∈ S' ∨ x ∈ R') :
    LeadsBack a' b' S' R' p q := by
  obtain ⟨⟨hap, hpb⟩, hq⟩ := h
  refine ⟨⟨by omega, by omega⟩, ?_⟩
  rcases hq with hq | hq | ⟨haq, hqp⟩
  · rcases hS q hq with h | h | ⟨h, h'⟩
    · exact .inl h
    · exact .inr (.inl h)
    · exact .inr (.inr ⟨h, Nat.lt_of_lt_of_le h' hap⟩)
  · rcases hR q hq with h | h
    · exact .inl h
    · exact .inr (.inl h)
  · exact .inr (.inr ⟨by omega, hqp⟩)

mutual

theorem epsilon_edge_wire : ∀ (e : Extent) (n : Nat) (S R : List StateId) (p q : StateId),
    ⟨p, .epsilon, q⟩ ∈ (e.wire n S R).edges → LeadsBack n (n + e.leafCount) S R p q
  | leaf _, n, S, R, p, q, h => by
    rcases List.mem_append.mp h with h | h
    · exact absurd h not_mem_enter_epsilon
    · obtain ⟨rfl, hq⟩ := mem_loopBack_epsilon.mp h
      exact ⟨⟨Nat.le_refl _, Nat.lt_succ_self _⟩, .inr (.inl hq)⟩
  | concatenation parts, n, S, R, p, q, h => epsilon_edge_wireParts parts n S R p q h
  | union alternatives, n, S, R, p, q, h => epsilon_edge_wireAlternatives alternatives n S R p q h
  | repetition body, n, S, R, p, q, h => by
    cases hleaf : body.isLeaf with
    | true =>
      obtain ⟨c, rfl⟩ := exists_leaf_of_isLeaf hleaf
      rcases List.mem_append.mp h with h | h
      · exact absurd h not_mem_enter_epsilon
      · rcases List.mem_cons.mp h with h | h
        · exact absurd h (by simp)
        · obtain ⟨rfl, hq⟩ := mem_loopBack_epsilon.mp h
          exact ⟨⟨Nat.le_refl _, Nat.lt_succ_self _⟩, .inr (.inl hq)⟩
    | false =>
      -- the body leads back to the starters too, which are repeaters in it
      rw [wire_repetition hleaf] at h
      have hbody := epsilon_edge_wire body n S (Arrival.merge R S) p q h
      refine hbody.widen (Nat.le_refl _) (Nat.le_refl _) (fun x hx => .inl hx) fun x hx => ?_
      exact (Arrival.mem_merge.mp hx).symm

theorem epsilon_edge_wireParts : ∀ (es : List Extent) (n : Nat) (S R : List StateId)
    (p q : StateId), ⟨p, .epsilon, q⟩ ∈ (wireParts es n S R).edges →
    LeadsBack n (n + leafCountAll es) S R p q
  | [], _, _, _, _, _, h => absurd h (by simp [wireParts])
  | [last], n, S, R, p, q, h => epsilon_edge_wire last n S R p q h
  | e :: e' :: others, n, S, R, p, q, h => by
    rw [wireParts] at h
    · rw [leafCountAll, ← Nat.add_assoc]
      rcases List.mem_append.mp h with h | h
      · have hfirst := epsilon_edge_wire e n S [] p q h
        exact hfirst.widen (Nat.le_refl _) (Nat.le_add_right _ _) (fun x hx => .inl hx)
          fun x hx => absurd hx (by simp)
      · have hrest := epsilon_edge_wireParts (e' :: others) _ _ R p q h
        refine hrest.widen (Nat.le_add_right _ _) (Nat.le_refl _) (fun x hx => ?_) fun x hx => .inr hx
        -- what leads back to the exits of a part leads to its leaves or to its starters
        rcases exit_cases hx with hx | hx
        · exact .inr (.inr hx)
        · exact .inl hx
    · simp

theorem epsilon_edge_wireAlternatives : ∀ (es : List Extent) (n : Nat) (S R : List StateId)
    (p q : StateId), ⟨p, .epsilon, q⟩ ∈ (wireAlternatives es n S R).edges →
    LeadsBack n (n + leafCountAll es) S R p q
  | [], _, _, _, _, _, h => absurd h (by simp [wireAlternatives])
  | e :: others, n, S, R, p, q, h => by
    rw [leafCountAll, ← Nat.add_assoc]
    rcases List.mem_append.mp h with h | h
    · have hfirst := epsilon_edge_wire e n S R p q h
      exact hfirst.widen (Nat.le_refl _) (Nat.le_add_right _ _) (fun x hx => .inl hx)
        fun x hx => .inr hx
    · have hrest := epsilon_edge_wireAlternatives others _ S R p q h
      exact hrest.widen (Nat.le_add_right _ _) (Nat.le_refl _) (fun x hx => .inl hx)
        fun x hx => .inr hx

end

/-! ## Both kinds together -/

/-- The leaves of a part can be given characters, wherever the part stands. -/
theorem exists_lettered (e : Extent) (n : Nat) : ∃ letter : StateId → Char, e.Lettered letter n := by
  refine ⟨fun x => e.characters.getD (x - n) default, lettered_of_characters e n fun i c hc => ?_⟩
  rw [Nat.add_sub_cancel_left, List.getD_eq_getElem?_getD, hc, Option.getD_some]

/-- An edge of a part starts at its leaves or at a starter, and leads to its leaves, to a starter or
to a repeater. -/
theorem edge_wire {e : Extent} {n : Nat} {S R : List StateId} {edge : Edge}
    (h : edge ∈ (e.wire n S R).edges) :
    (edge.source ∈ S ∨ n ≤ edge.source ∧ edge.source < n + e.leafCount) ∧
    (edge.target ∈ S ∨ edge.target ∈ R ∨ n ≤ edge.target ∧ edge.target < n + e.leafCount) := by
  obtain ⟨p, symbol, q⟩ := edge
  cases symbol with
  | epsilon =>
    obtain ⟨hp, hq⟩ := epsilon_edge_wire e n S R p q h
    refine ⟨.inr hp, hq.imp_right fun hq => hq.imp_right fun hq => ⟨hq.1, ?_⟩⟩
    exact Nat.lt_trans hq.2 hp.2
  | char c =>
    obtain ⟨letter, hletter⟩ := e.exists_lettered n
    have hwithin := within_positions e n
    rcases ((char_edge_wire e n S R p c q hletter).mp h).1 with ⟨hp, hq⟩ | hpq
    · exact ⟨.inl hp, .inr (.inr (hwithin.first q hq))⟩
    · have hlinks := hwithin.links p q (.inl hpq)
      exact ⟨.inr hlinks.1, .inr (.inr hlinks.2)⟩

end Extent

/-! ## The automaton of a tree -/

namespace Automaton

variable {e : Extent} {p q : StateId}

theorem le_of_hasEdge_char {c : Char} (h : (ofExtent e).HasEdge p (.char c) q) : p ≤ q := by
  rcases (hasEdge_char.mp h).1 with ⟨rfl, _⟩ | h
  · exact Nat.zero_le q
  · exact e.forward_positions 1 p q h

theorem lt_of_hasEdge_epsilon (h : (ofExtent e).HasEdge p .epsilon q) : q < p := by
  obtain ⟨⟨hp, _⟩, hq | hq | hq⟩ := e.epsilon_edge_wire 1 [0] [] p q (hasEdge_ofExtent.mp h).2
  · rw [List.mem_singleton.mp hq]
    exact hp
  · exact absurd hq (by simp)
  · exact hq.2

/-- What is written on an edge that leads back is nothing. -/
theorem hasEdge_epsilon_iff {symbol : Symbol} (h : (ofExtent e).HasEdge p symbol q) :
    symbol = .epsilon ↔ q < p := by
  cases symbol with
  | epsilon => exact ⟨fun _ => lt_of_hasEdge_epsilon h, fun _ => rfl⟩
  | char c =>
    exact ⟨fun heq => absurd heq (by simp), fun hlt =>
      absurd hlt (Nat.not_lt.mpr (le_of_hasEdge_char h))⟩

/-- The edges of a tree's automaton lead to its states. -/
theorem closed_ofExtent (e : Extent) : (ofExtent e).Closed := by
  intro p symbol q h
  cases symbol with
  | epsilon => exact Nat.lt_trans (lt_of_hasEdge_epsilon h) h.lt
  | char c =>
    rw [size_ofExtent, Nat.add_comm]
    rcases reads_iff.mp ⟨c, h⟩ with ⟨_, hq⟩ | hq
    · exact ((e.within_positions 1).first q hq).2
    · exact ((e.within_positions 1).links p q (.inl hq)).2.2

end Automaton

end CaretAutomata

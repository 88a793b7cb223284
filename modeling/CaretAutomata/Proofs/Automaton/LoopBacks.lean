import CaretAutomata.Proofs.Automaton.Direction

/-!
# Which loops silent edges close

A repeated extent is left at its end and entered again at its beginning, and an edge that consumes
nothing leads from the one to the other. `wire` never sees such a loop as a whole: what to lead back
to is handed down from repetition to repetition, grows on the way and is dropped wherever something
follows. This file says the same without any handing down. `Site.children` goes down the tree and
gives every part the states that stand in front of it, `Extent.tail` goes up and gives every part
the leaves it ends with, and an edge closes a loop from the latter to the former
(`silent_edges_close_loops`).

The tail is the *syntactic* end. `positions.last` holds every leaf that can stand last, the tail
only those of the last part of a concatenation, which may be none at all. Where the two differ a
loop is missing, and that is where words are lost.
-/

namespace CaretAutomata

open Relation

namespace Extent

mutual

/-- The leaves at the end of a tree whose first leaf has the number `n`. -/
def tail : Extent → (n : Nat) → List StateId
  | leaf _, n => [n]
  | concatenation parts, n => tailParts parts n
  | union alternatives, n => tailAlternatives alternatives n
  | repetition body, n => body.tail n

/-- The leaves at the end of the last part. -/
def tailParts : List Extent → (n : Nat) → List StateId
  | [], _ => []
  | [last], n => last.tail n
  | part :: others, n => tailParts others (n + part.leafCount)

def tailAlternatives : List Extent → (n : Nat) → List StateId
  | [], _ => []
  | alternative :: others, n =>
    alternative.tail n ++ tailAlternatives others (n + alternative.leafCount)

end

theorem tailParts_cons (part : Extent) {others : List Extent} (h : others ≠ []) (n : Nat) :
    tailParts (part :: others) n = tailParts others (n + part.leafCount) := by
  cases others with
  | nil => exact absurd rfl h
  | cons second others => rfl

end Extent

/-! ## Where a part stands -/

/-- A part of a tree where it stands: the number of its first leaf, and the states in front of
it. -/
structure Site where
  part : Extent
  first : Nat
  starters : Set StateId

namespace Site

open Extent

/-- The states at which the part is consumed: its last leaves, and those in front of it if it can be
skipped. -/
def exits (s : Site) : Set StateId :=
  {x | x ∈ (s.part.positions s.first).last ∨
    (s.part.positions s.first).nullable = true ∧ x ∈ s.starters}

/-- Parts one behind the other: each stands behind the exits of the one in front of it. -/
def ofParts : List Extent → (n : Nat) → Set StateId → List Site
  | [], _, _ => []
  | part :: others, n, S => ⟨part, n, S⟩ :: ofParts others (n + part.leafCount) (exits ⟨part, n, S⟩)

/-- Alternatives: all of them stand behind the same states. -/
def ofAlternatives : List Extent → (n : Nat) → Set StateId → List Site
  | [], _, _ => []
  | alternative :: others, n, S =>
    ⟨alternative, n, S⟩ :: ofAlternatives others (n + alternative.leafCount) S

/-- The parts one level down. -/
def children : Site → List Site
  | ⟨.leaf _, _, _⟩ => []
  | ⟨.concatenation parts, n, S⟩ => ofParts parts n S
  | ⟨.union alternatives, n, S⟩ => ofAlternatives alternatives n S
  | ⟨.repetition body, n, S⟩ => [⟨body, n, S⟩]

/-- The part, or a part of it at any depth. -/
def Holds : Site → Site → Prop := ReflTransGen fun s t => t ∈ s.children

/-- The whole tree stands behind the start state. -/
def whole (e : Extent) : Site := ⟨e, 1, {0}⟩

/-- The site is that of a repeated extent, which leads from its tail back to what stands in front of
it. The repetition of a character closes no such loop. -/
def Closes (s : Site) (p r : StateId) : Prop :=
  ∃ body, s.part = .repetition body ∧ body.isLeaf = false ∧ p ∈ body.tail s.first ∧ r ∈ s.starters

/-- The loop is that of the part, or of a part of it. -/
def Loops (s : Site) (p r : StateId) : Prop := ∃ t, s.Holds t ∧ t.Closes p r

variable {s : Site} {p r : StateId}

/-- A loop is closed here or further down. -/
theorem loops_iff : s.Loops p r ↔ s.Closes p r ∨ ∃ t ∈ s.children, t.Loops p r := by
  constructor
  · intro h
    obtain ⟨t, hheld, hcloses⟩ := h
    rcases ReflTransGen.cases_head hheld with rfl | ⟨u, hchild, hrest⟩
    · exact .inl hcloses
    · exact .inr ⟨u, hchild, t, hrest, hcloses⟩
  · intro h
    rcases h with h | ⟨u, hchild, t, hrest, hcloses⟩
    · exact ⟨s, .refl, h⟩
    · exact ⟨t, .head hchild hrest, hcloses⟩

/-- Only a repetition closes a loop itself. -/
theorem loops_iff_children (h : ∀ body, s.part ≠ .repetition body) :
    s.Loops p r ↔ ∃ t ∈ s.children, t.Loops p r := by
  rw [loops_iff]
  apply or_iff_right
  intro hcloses
  obtain ⟨body, hpart, -⟩ := hcloses
  exact h body hpart

variable {n : Nat} {S : Set StateId}

theorem not_loops_leaf {c : Char} : ¬ (Site.mk (leaf c) n S).Loops p r := by
  rw [loops_iff_children (by simp)]
  intro h
  obtain ⟨t, hchild, -⟩ := h
  exact absurd hchild (by simp [children])

theorem loops_concatenation {parts : List Extent} :
    (Site.mk (concatenation parts) n S).Loops p r ↔ ∃ t ∈ ofParts parts n S, t.Loops p r :=
  loops_iff_children (by simp)

theorem loops_union {alternatives : List Extent} :
    (Site.mk (union alternatives) n S).Loops p r ↔
      ∃ t ∈ ofAlternatives alternatives n S, t.Loops p r :=
  loops_iff_children (by simp)

theorem exists_loops_ofParts (part : Extent) (others : List Extent) (n : Nat) (S : Set StateId)
    (p r : StateId) :
    (∃ t ∈ ofParts (part :: others) n S, t.Loops p r) ↔ (Site.mk part n S).Loops p r ∨
      ∃ t ∈ ofParts others (n + part.leafCount) (exits ⟨part, n, S⟩), t.Loops p r :=
  List.exists_mem_cons_iff ..

theorem exists_loops_ofAlternatives (alternative : Extent) (others : List Extent) (n : Nat)
    (S : Set StateId) (p r : StateId) :
    (∃ t ∈ ofAlternatives (alternative :: others) n S, t.Loops p r) ↔
      (Site.mk alternative n S).Loops p r ∨
        ∃ t ∈ ofAlternatives others (n + alternative.leafCount) S, t.Loops p r :=
  List.exists_mem_cons_iff ..

theorem not_loops_repeatedLeaf {c : Char} : ¬ (Site.mk (repetition (leaf c)) n S).Loops p r := by
  rw [loops_iff]
  intro h
  rcases h with ⟨body, hpart, hleaf, -⟩ | ⟨t, hchild, h⟩
  · obtain rfl : leaf c = body := Extent.repetition.inj hpart
    exact absurd hleaf (by simp [isLeaf])
  · obtain rfl : t = ⟨leaf c, n, S⟩ := List.mem_singleton.mp hchild
    exact not_loops_leaf h

theorem loops_repetition {body : Extent} (h : body.isLeaf = false) :
    (Site.mk (repetition body) n S).Loops p r ↔
      p ∈ body.tail n ∧ r ∈ S ∨ (Site.mk body n S).Loops p r := by
  rw [loops_iff]
  simp [Closes, children, h]

end Site

/-! ## The edges of a part -/

namespace Extent

open Site

/-- The exits of a site are those of its wiring. -/
theorem exits_wire_eq (e : Extent) (n : Nat) (S R : List StateId) :
    {x | x ∈ (e.wire n S R).exits} = (Site.mk e n {x | x ∈ S}).exits :=
  Set.ext fun x => mem_exits_wire e n S R x

mutual

theorem mem_epsilon_wire : ∀ (e : Extent) (n : Nat) (S R : List StateId) (p r : StateId),
    ⟨p, .epsilon, r⟩ ∈ (e.wire n S R).edges ↔
      p ∈ e.tail n ∧ r ∈ R ∨ (Site.mk e n {x | x ∈ S}).Loops p r
  | leaf _, n, S, R, p, r => by
    rw [wire, List.mem_append, mem_loopBack_epsilon, tail, List.mem_singleton]
    rw [or_iff_right not_mem_enter_epsilon, or_iff_left not_loops_leaf]
  | concatenation parts, n, S, R, p, r => by
    rw [wire, tail, loops_concatenation]
    exact mem_epsilon_wireParts parts n S R p r
  | union alternatives, n, S, R, p, r => by
    rw [wire, tail, loops_union]
    exact mem_epsilon_wireAlternatives alternatives n S R p r
  | repetition body, n, S, R, p, r => by
    cases hleaf : body.isLeaf with
    | true =>
      obtain ⟨c, rfl⟩ := exists_leaf_of_isLeaf hleaf
      rw [or_iff_left not_loops_repeatedLeaf, tail, tail, List.mem_singleton]
      rw [wire, List.mem_append, or_iff_right not_mem_enter_epsilon, List.mem_cons,
        mem_loopBack_epsilon]
      simp
    | false =>
      -- the starters are repeaters in the body: the loop that is closed here
      have hbody := mem_epsilon_wire body n S (Arrival.merge R S) p r
      rw [wire_repetition hleaf, hbody, loops_repetition hleaf, Arrival.mem_merge, and_or_left,
        or_assoc]
      rfl

theorem mem_epsilon_wireParts : ∀ (es : List Extent) (n : Nat) (S R : List StateId)
    (p r : StateId), ⟨p, .epsilon, r⟩ ∈ (wireParts es n S R).edges ↔
      p ∈ tailParts es n ∧ r ∈ R ∨ ∃ t ∈ ofParts es n {x | x ∈ S}, t.Loops p r
  | [], n, S, R, p, r => by simp [wireParts, tailParts, ofParts]
  | [last], n, S, R, p, r => by
    have hlast := mem_epsilon_wire last n S R p r
    simpa [wireParts, tailParts, ofParts] using hlast
  | e :: e' :: others, n, S, R, p, r => by
    -- only the last part leads back to the repeaters
    have hfirst := (mem_epsilon_wire e n S [] p r).trans
      (or_iff_right fun h => absurd h.2 List.not_mem_nil)
    have hrest := mem_epsilon_wireParts (e' :: others) (n + e.leafCount) (e.wire n S []).exits R p r
    have hloops := exists_loops_ofParts e (e' :: others) n {x | x ∈ S} p r
    rw [exits_wire_eq] at hrest
    rw [wireParts, List.mem_append, hfirst, hrest, hloops, tailParts_cons e (by simp)]
    · exact or_left_comm
    · simp

theorem mem_epsilon_wireAlternatives : ∀ (es : List Extent) (n : Nat) (S R : List StateId)
    (p r : StateId), ⟨p, .epsilon, r⟩ ∈ (wireAlternatives es n S R).edges ↔
      p ∈ tailAlternatives es n ∧ r ∈ R ∨ ∃ t ∈ ofAlternatives es n {x | x ∈ S}, t.Loops p r
  | [], n, S, R, p, r => by simp [wireAlternatives, tailAlternatives, ofAlternatives]
  | e :: others, n, S, R, p, r => by
    have hfirst := mem_epsilon_wire e n S R p r
    have hrest := mem_epsilon_wireAlternatives others (n + e.leafCount) S R p r
    have hloops := exists_loops_ofAlternatives e others n {x | x ∈ S} p r
    rw [wireAlternatives, List.mem_append, hfirst, hrest, hloops, tailAlternatives, List.mem_append,
      or_and_right, or_or_or_comm]

end

end Extent

/-! ## The automaton of a tree -/

namespace Automaton

/-- **Silent edges close the loops of repeated extents, and nothing else.** -/
theorem silent_edges_close_loops (e : Extent) (p r : StateId) :
    (ofExtent e).HasEdge p .epsilon r ↔ ∃ s, (Site.whole e).Holds s ∧ ∃ body,
      s.part = .repetition body ∧ body.isLeaf = false ∧ p ∈ body.tail s.first ∧ r ∈ s.starters := by
  have hwire := e.mem_epsilon_wire 1 [0] [] p r
  have hstart : ({x | x ∈ [0]} : Set StateId) = {0} := by
    ext x
    simp
  rw [hasEdge_ofExtent, Extent.wiring]
  constructor
  · intro h
    rcases hwire.mp h.2 with ⟨-, hr⟩ | hloops
    · exact absurd hr (by simp)
    · rw [hstart] at hloops
      exact hloops
  · intro h
    have hloops : (Site.whole e).Loops p r := h
    rw [Site.whole, ← hstart] at hloops
    have hedge := hwire.mpr (.inr hloops)
    have hlt := (e.epsilon_edge_wire 1 [0] [] p r hedge).1.2
    rw [Nat.add_comm] at hlt
    exact ⟨hlt, hedge⟩

end Automaton

end CaretAutomata

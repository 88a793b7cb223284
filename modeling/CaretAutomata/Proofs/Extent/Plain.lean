import CaretAutomata.Proofs.Automaton.Direction
import CaretAutomata.Proofs.Pattern.Grammar

/-!
# Trees without repetitions

Without a marker a pattern has finitely many words, none of them empty, and its automaton no way
back: no silent edge at all (`not_epsilon_edge_of_plain`), and no edge out of a last leaf
(`Once.last`). This last fact is what lets acceptance be read off the finished automaton. A leaf that
ends a word of some part either ends a word of the whole tree or is followed by what comes next, and
never both, because nothing that comes next can be left out.
-/

namespace CaretAutomata

namespace Extent

mutual

/-- The tree has no repetition, and no concatenation of nothing. -/
def Plain : Extent → Prop
  | leaf _ => True
  | concatenation parts => parts ≠ [] ∧ PlainAll parts
  | union alternatives => PlainAll alternatives
  | repetition _ => False

def PlainAll : List Extent → Prop
  | [] => True
  | e :: others => e.Plain ∧ PlainAll others

end

end Extent

/-! ## Words that are over when they end -/

namespace Positions

variable {P Q : Positions} {a b c : Nat}

/-- Nothing can be left out, nothing is repeated, and behind a last leaf the word is over. -/
structure Once (P : Positions) : Prop where
  not_nullable : P.nullable = false
  no_round : P.rounds = []
  last : ∀ x y, P.Follows x y → x ∉ P.last

theorem Once.before (hP : P.Once) (hQ : Q.Once) (hwithinP : P.Within a b)
    (hwithinQ : Q.Within b c) : (P.before Q).Once where
  not_nullable := by simp [Positions.before, hP.not_nullable]
  no_round := by simp [Positions.before, hP.no_round, hQ.no_round]
  last x y hxy hx := by
    -- as `Q` cannot be left out, a last leaf is one of `Q`
    have hlast : x ∈ Q.last := by
      rcases mem_last_before.mp hx with hx | ⟨hnull, _⟩
      · exact hx
      · exact absurd (hQ.not_nullable.symm.trans hnull) (by simp)
    have hle := (hwithinQ.last x hlast).1
    rcases mem_follow_before.mp hxy with h | h | ⟨h, _⟩
    · exact absurd (hwithinP.links x y (.inl h)).1.2 (Nat.not_lt.mpr hle)
    · exact hQ.last x y h hlast
    · exact absurd (hwithinP.last x h).2 (Nat.not_lt.mpr hle)

theorem Once.either (hP : P.Once) (hQ : Q.Once) (hwithinP : P.Within a b)
    (hwithinQ : Q.Within b c) : (P.either Q).Once where
  not_nullable := by simp [Positions.either, hP.not_nullable, hQ.not_nullable]
  no_round := by simp [Positions.either, hP.no_round, hQ.no_round]
  last x y hxy hx := by
    rcases List.mem_append.mp hxy with h | h <;> rcases List.mem_append.mp hx with hx | hx
    · exact hP.last x y h hx
    · exact absurd (hwithinP.links x y (.inl h)).1.2 (Nat.not_lt.mpr (hwithinQ.last x hx).1)
    · exact absurd (hwithinP.last x hx).2 (Nat.not_lt.mpr (hwithinQ.links x y (.inl h)).1.1)
    · exact hQ.last x y h hx

end Positions

namespace Extent

open Positions

mutual

theorem once_positions : ∀ (e : Extent) (n : Nat), e.Plain → (e.positions n).Once
  | leaf _, n, _ => ⟨rfl, rfl, fun x y hxy => absurd hxy (by simp [positions, single, Follows])⟩
  | concatenation parts, n, h => once_positionsParts parts n h.1 h.2
  | union alternatives, n, h => once_positionsAlternatives alternatives n h
  | repetition _, _, h => h.elim

theorem once_positionsParts : ∀ (es : List Extent) (n : Nat), es ≠ [] → PlainAll es →
    (positionsParts es n).Once
  | [], _, hne, _ => absurd rfl hne
  | [last], n, _, h => by
    have hlast := once_positions last n h.1
    refine ⟨?_, ?_, fun x y hxy hx => hlast.last x y ?_ ?_⟩
    · simp [positionsParts, before, hlast.not_nullable]
    · simp [positionsParts, before, skip, hlast.no_round]
    · simpa [positionsParts, before, skip, Follows] using hxy
    · simpa [positionsParts, before, skip] using hx
  | e :: e' :: others, n, _, h => by
    have hrest := once_positionsParts (e' :: others) (n + e.leafCount) (by simp) h.2
    exact (once_positions e n h.1).before hrest (within_positions e n)
      (within_positionsParts (e' :: others) _)

theorem once_positionsAlternatives : ∀ (es : List Extent) (n : Nat), PlainAll es →
    (positionsAlternatives es n).Once
  | [], _, _ => ⟨rfl, rfl, fun x y hxy => absurd hxy (by simp [positionsAlternatives, never, Follows])⟩
  | e :: others, n, h =>
    (once_positions e n h.1).either (once_positionsAlternatives others _ h.2)
      (within_positions e n) (within_positionsAlternatives others _)

end

/-! ## No way back -/

mutual

/-- Only a repetition leads back, so what leads back leads to what was handed down. -/
theorem epsilon_target_of_plain : ∀ (e : Extent) (n : Nat) (S R : List StateId) (p q : StateId),
    e.Plain → ⟨p, .epsilon, q⟩ ∈ (e.wire n S R).edges → q ∈ R
  | leaf _, n, S, R, p, q, _, h => by
    rcases List.mem_append.mp h with h | h
    · exact absurd h not_mem_enter_epsilon
    · exact (mem_loopBack_epsilon.mp h).2
  | concatenation parts, n, S, R, p, q, hplain, h =>
    epsilon_target_of_plainParts parts n S R p q hplain.2 h
  | union alternatives, n, S, R, p, q, hplain, h =>
    epsilon_target_of_plainAlternatives alternatives n S R p q hplain h
  | repetition _, _, _, _, _, _, hplain, _ => hplain.elim

theorem epsilon_target_of_plainParts : ∀ (es : List Extent) (n : Nat) (S R : List StateId)
    (p q : StateId), PlainAll es → ⟨p, .epsilon, q⟩ ∈ (wireParts es n S R).edges → q ∈ R
  | [], _, _, _, _, _, _, h => absurd h (by simp [wireParts])
  | [last], n, S, R, p, q, hplain, h => epsilon_target_of_plain last n S R p q hplain.1 h
  | e :: e' :: others, n, S, R, p, q, hplain, h => by
    rw [wireParts] at h
    · rcases List.mem_append.mp h with h | h
      · exact absurd (epsilon_target_of_plain e n S [] p q hplain.1 h) (by simp)
      · exact epsilon_target_of_plainParts (e' :: others) _ _ R p q hplain.2 h
    · simp

theorem epsilon_target_of_plainAlternatives : ∀ (es : List Extent) (n : Nat) (S R : List StateId)
    (p q : StateId), PlainAll es → ⟨p, .epsilon, q⟩ ∈ (wireAlternatives es n S R).edges → q ∈ R
  | [], _, _, _, _, _, _, h => absurd h (by simp [wireAlternatives])
  | e :: others, n, S, R, p, q, hplain, h => by
    rcases List.mem_append.mp h with h | h
    · exact epsilon_target_of_plain e n S R p q hplain.1 h
    · exact epsilon_target_of_plainAlternatives others _ S R p q hplain.2 h

end

theorem not_epsilon_edge_of_plain {e : Extent} (h : e.Plain) {p q : StateId} :
    ¬ (Automaton.ofExtent e).HasEdge p .epsilon q := fun hedge =>
  absurd (epsilon_target_of_plain e 1 [0] [] p q h (Automaton.hasEdge_ofExtent.mp hedge).2)
    (by simp)

end Extent

/-! ## Patterns without markers -/

namespace Pattern

open Extent

/-- A group without markers holds none and has none behind it. -/
theorem not_mem_group {body : Expression} {starred : Bool}
    (h : '^' ∉ (Item.group body starred).spelling) :
    '^' ∉ body.spelling ∧ '^' ∉ markerIf starred := by
  simp only [Item.spelling, List.mem_cons, List.mem_append, not_or] at h
  exact ⟨h.2.1, h.2.2.2⟩

mutual

theorem Expression.plain_tree : ∀ {e : Expression}, '^' ∉ e.spelling → e.tree.Plain
  | .one _, h => Alternative.plain_tree h
  | .more _ _, h => by
    obtain ⟨ha, hothers⟩ := not_or.mp (mt List.mem_append.mpr h)
    exact ⟨Alternative.plain_tree ha, Expression.plain_trees fun hmem => hothers (.tail _ hmem)⟩

theorem Expression.plain_trees : ∀ {e : Expression}, '^' ∉ e.spelling → PlainAll e.trees
  | .one _, h => ⟨Alternative.plain_tree h, trivial⟩
  | .more _ _, h => by
    obtain ⟨ha, hothers⟩ := not_or.mp (mt List.mem_append.mpr h)
    exact ⟨Alternative.plain_tree ha, Expression.plain_trees fun hmem => hothers (.tail _ hmem)⟩

theorem Expression.plain_content : ∀ {e : Expression}, '^' ∉ e.spelling → e.content.Plain
  | .one (.one (.group body false)), h =>
    Expression.plain_content (e := body) (not_mem_group h).1
  | .one (.one (.group _ true)), h => absurd (not_mem_group h).2 (by decide)
  | .one (.one (.sign _ false)), _ => ⟨by simp, trivial, trivial⟩
  | .one (.one (.sign _ true)), h => absurd (.tail _ (.head _)) h
  | .one (.more _ _), h => by
    obtain ⟨hi, hothers⟩ := not_or.mp (mt List.mem_append.mpr h)
    exact ⟨by simp, Item.plain_tree hi, Alternative.plain_trees hothers⟩
  | .more _ _, h => by
    obtain ⟨ha, hothers⟩ := not_or.mp (mt List.mem_append.mpr h)
    exact ⟨Alternative.plain_tree ha, Expression.plain_trees fun hmem => hothers (.tail _ hmem)⟩

theorem Alternative.plain_tree : ∀ {a : Alternative}, '^' ∉ a.spelling → a.tree.Plain
  | .one (.group body false), h => Expression.plain_content (e := body) (not_mem_group h).1
  | .one (.group _ true), h => absurd (not_mem_group h).2 (by decide)
  | .one (.sign _ false), _ => ⟨by simp, trivial, trivial⟩
  | .one (.sign _ true), h => absurd (.tail _ (.head _)) h
  | .more _ _, h => by
    obtain ⟨hi, hothers⟩ := not_or.mp (mt List.mem_append.mpr h)
    exact ⟨by simp, Item.plain_tree hi, Alternative.plain_trees hothers⟩

theorem Alternative.plain_trees : ∀ {a : Alternative}, '^' ∉ a.spelling → PlainAll a.trees
  | .one _, h => ⟨Item.plain_tree h, trivial⟩
  | .more _ _, h => by
    obtain ⟨hi, hothers⟩ := not_or.mp (mt List.mem_append.mpr h)
    exact ⟨Item.plain_tree hi, Alternative.plain_trees hothers⟩

theorem Item.plain_tree : ∀ {i : Item}, '^' ∉ i.spelling → i.tree.Plain
  | .sign _ false, _ => trivial
  | .sign _ true, h => absurd (.tail _ (.head _)) h
  | .group body false, h => Expression.plain_content (e := body) (not_mem_group h).1
  | .group _ true, h => absurd (not_mem_group h).2 (by decide)

end

end Pattern

end CaretAutomata

import CaretAutomata.Proofs.Extent.Positions
import CaretAutomata.Proofs.Pattern.Grammar

/-!
# Trees in which every leaf is of use

A union without alternatives stands for no word, and it takes everything beside it along: no word of
`a∅` passes through its `a`. No pattern has such a union (`Expression.solid_tree`), so in the tree
of a pattern every leaf lies on some word — on one, moreover, in which no repetition takes a second
round (`exists_accepts_through`). That last part is what a statement about the automaton needs, for
a second round is just what the automaton may fail to have.
-/

namespace CaretAutomata

namespace Extent

mutual

/-- Every union in the tree has an alternative. -/
def Solid : Extent → Prop
  | leaf _ => True
  | concatenation parts => SolidAll parts
  | union alternatives => alternatives ≠ [] ∧ SolidAll alternatives
  | repetition body => body.Solid

def SolidAll : List Extent → Prop
  | [] => True
  | e :: others => e.Solid ∧ SolidAll others

end

open Positions

/-- One round of a repetition. -/
theorem accepts_repetition {body : Extent} {n : Nat} {w : List Nat}
    (h : (body.positions n).Accepts (body.positions n).Follows w) :
    ((repetition body).positions n).Accepts ((repetition body).positions n).Follows w := by
  rw [positions_repetition]
  split
  · refine Accepts.mono (P := body.positions n) (fun x y hxy => ?_) ?_ ?_ ?_ h
    · exact List.mem_append_left _ hxy
    · exact fun _ => rfl
    · exact fun _ hx => hx
    · exact fun _ hx => hx
  · refine Accepts.mono (P := body.positions n) (fun x y hxy => ?_) ?_ ?_ ?_ h
    · exact hxy
    · exact fun _ => rfl
    · exact fun _ hx => hx
    · exact fun _ hx => hx

/-- A word of a part, then a word of the others. -/
theorem acceptsParts_append {e : Extent} {others : List Extent} {n : Nat} {u v : List Nat}
    (hu : (e.positions n).Accepts (e.positions n).Follows u)
    (hv : (positionsParts others (n + e.leafCount)).Accepts
      (positionsParts others (n + e.leafCount)).Follows v) :
    (positionsParts (e :: others) n).Accepts (positionsParts (e :: others) n).Follows (u ++ v) := by
  refine Accepts.before ?_ ?_ fun x hx y hy => mem_follow_before.mpr (.inr (.inr ⟨hx, hy⟩))
  · exact hu.relax fun x y hxy => mem_follow_before.mpr (.inl hxy)
  · exact hv.relax fun x y hxy => mem_follow_before.mpr (.inr (.inl hxy))

theorem acceptsAlternatives_head {e : Extent} {others : List Extent} {n : Nat} {w : List Nat}
    (h : (e.positions n).Accepts (e.positions n).Follows w) :
    (positionsAlternatives (e :: others) n).Accepts
      (positionsAlternatives (e :: others) n).Follows w :=
  Accepts.either_left (h.relax fun _ _ hxy => List.mem_append_left _ hxy)

theorem acceptsAlternatives_tail {e : Extent} {others : List Extent} {n : Nat} {w : List Nat}
    (h : (positionsAlternatives others (n + e.leafCount)).Accepts
      (positionsAlternatives others (n + e.leafCount)).Follows w) :
    (positionsAlternatives (e :: others) n).Accepts
      (positionsAlternatives (e :: others) n).Follows w :=
  Accepts.either_right (h.relax fun _ _ hxy => List.mem_append_right _ hxy)

mutual

theorem exists_accepts : ∀ (e : Extent) (n : Nat), e.Solid →
    ∃ w, (e.positions n).Accepts (e.positions n).Follows w
  | leaf _, n, _ => ⟨[n], List.mem_singleton.mpr rfl, List.mem_singleton.mpr rfl⟩
  | concatenation parts, n, h => existsParts_accepts parts n h
  | union alternatives, n, h => existsAlternatives_accepts alternatives n h.1 h.2
  | repetition body, n, h => by
    obtain ⟨w, hw⟩ := exists_accepts body n h
    exact ⟨w, accepts_repetition hw⟩

theorem existsParts_accepts : ∀ (es : List Extent) (n : Nat), SolidAll es →
    ∃ w, (positionsParts es n).Accepts (positionsParts es n).Follows w
  | [], _, _ => ⟨[], rfl⟩
  | e :: others, n, h => by
    obtain ⟨u, hu⟩ := exists_accepts e n h.1
    obtain ⟨v, hv⟩ := existsParts_accepts others (n + e.leafCount) h.2
    exact ⟨u ++ v, acceptsParts_append hu hv⟩

theorem existsAlternatives_accepts : ∀ (es : List Extent) (n : Nat), es ≠ [] → SolidAll es →
    ∃ w, (positionsAlternatives es n).Accepts (positionsAlternatives es n).Follows w
  | [], _, hne, _ => absurd rfl hne
  | e :: others, n, _, h => by
    obtain ⟨w, hw⟩ := exists_accepts e n h.1
    exact ⟨w, acceptsAlternatives_head hw⟩

end

mutual

/-- **Every leaf lies on a word**, and on one that takes no second round. -/
theorem exists_accepts_through : ∀ (e : Extent) (n : Nat), e.Solid → ∀ x, n ≤ x →
    x < n + e.leafCount → ∃ u v, (e.positions n).Accepts (e.positions n).Follows (u ++ x :: v)
  | leaf _, n, _, x, hle, hlt => by
    obtain rfl : x = n := by
      rw [leafCount] at hlt
      omega
    exact ⟨[], [], List.mem_singleton.mpr rfl, List.mem_singleton.mpr rfl⟩
  | concatenation parts, n, h, x, hle, hlt => existsParts_accepts_through parts n h x hle hlt
  | union alternatives, n, h, x, hle, hlt =>
    existsAlternatives_accepts_through alternatives n h.2 x hle hlt
  | repetition body, n, h, x, hle, hlt => by
    obtain ⟨u, v, hw⟩ := exists_accepts_through body n h x hle hlt
    exact ⟨u, v, accepts_repetition hw⟩

theorem existsParts_accepts_through : ∀ (es : List Extent) (n : Nat), SolidAll es → ∀ x, n ≤ x →
    x < n + leafCountAll es →
    ∃ u v, (positionsParts es n).Accepts (positionsParts es n).Follows (u ++ x :: v)
  | [], n, _, x, hle, hlt => absurd hlt (Nat.not_lt.mpr hle)
  | e :: others, n, h, x, hle, hlt => by
    rw [leafCountAll, ← Nat.add_assoc] at hlt
    -- the part with the leaf gives the word through it, the others any word
    by_cases hx : x < n + e.leafCount
    · obtain ⟨u, v, hw⟩ := exists_accepts_through e n h.1 x hle hx
      obtain ⟨w, hrest⟩ := existsParts_accepts others (n + e.leafCount) h.2
      refine ⟨u, v ++ w, ?_⟩
      rw [← List.cons_append, ← List.append_assoc]
      exact acceptsParts_append hw hrest
    · obtain ⟨u, v, hw⟩ := existsParts_accepts_through others (n + e.leafCount) h.2 x
        (Nat.not_lt.mp hx) hlt
      obtain ⟨w, hfirst⟩ := exists_accepts e n h.1
      refine ⟨w ++ u, v, ?_⟩
      rw [List.append_assoc]
      exact acceptsParts_append hfirst hw

theorem existsAlternatives_accepts_through : ∀ (es : List Extent) (n : Nat), SolidAll es → ∀ x,
    n ≤ x → x < n + leafCountAll es →
    ∃ u v, (positionsAlternatives es n).Accepts (positionsAlternatives es n).Follows (u ++ x :: v)
  | [], n, _, x, hle, hlt => absurd hlt (Nat.not_lt.mpr hle)
  | e :: others, n, h, x, hle, hlt => by
    rw [leafCountAll, ← Nat.add_assoc] at hlt
    by_cases hx : x < n + e.leafCount
    · obtain ⟨u, v, hw⟩ := exists_accepts_through e n h.1 x hle hx
      exact ⟨u, v, acceptsAlternatives_head hw⟩
    · obtain ⟨u, v, hw⟩ := existsAlternatives_accepts_through others (n + e.leafCount) h.2 x
        (Nat.not_lt.mp hx) hlt
      exact ⟨u, v, acceptsAlternatives_tail hw⟩

end

end Extent

/-! ## Patterns -/

namespace Pattern

open Extent

mutual

theorem Expression.solid_tree : ∀ e : Expression, e.tree.Solid
  | .one a => a.solid_tree
  | .more a others => ⟨by simp, a.solid_tree, others.solid_trees⟩

theorem Expression.solid_trees : ∀ e : Expression, SolidAll e.trees
  | .one a => ⟨a.solid_tree, trivial⟩
  | .more a others => ⟨a.solid_tree, others.solid_trees⟩

theorem Expression.solid_content : ∀ e : Expression, e.content.Solid
  | .one (.one (.group body false)) => body.solid_content
  | .one (.one (.group body true)) => ⟨body.solid_tree, trivial⟩
  | .one (.one (.sign _ false)) => ⟨trivial, trivial⟩
  | .one (.one (.sign _ true)) => ⟨trivial, trivial⟩
  | .one (.more i others) => ⟨i.solid_tree, others.solid_trees⟩
  | .more a others => ⟨by simp, a.solid_tree, others.solid_trees⟩

theorem Alternative.solid_tree : ∀ a : Alternative, a.tree.Solid
  | .one (.group body true) => body.solid_tree
  | .one (.group body false) => body.solid_content
  | .one (.sign _ false) => ⟨trivial, trivial⟩
  | .one (.sign _ true) => ⟨trivial, trivial⟩
  | .more i others => ⟨i.solid_tree, others.solid_trees⟩

theorem Alternative.solid_trees : ∀ a : Alternative, SolidAll a.trees
  | .one i => ⟨i.solid_tree, trivial⟩
  | .more i others => ⟨i.solid_tree, others.solid_trees⟩

theorem Item.solid_tree : ∀ i : Item, i.tree.Solid
  | .sign _ false => trivial
  | .sign _ true => trivial
  | .group body true => body.solid_tree
  | .group body false => body.solid_content

end

end Pattern

end CaretAutomata

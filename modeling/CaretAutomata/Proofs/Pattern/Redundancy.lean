import CaretAutomata.Proofs.Automaton.Marks
import CaretAutomata.Proofs.Extent.Redundancy
import CaretAutomata.Proofs.Pattern.RoundTrip

/-!
# Brackets that say nothing

Brackets around a pattern, and a second marker around a repeated one, change its text and may change
its tree, but not its automaton: what they add to the tree is redundant. They do cost length, and
perhaps a level of depth, so the limits may refuse the longer text. `CompilesTo` says of a pattern
which limits let it through, and that they have no other influence.
-/

namespace CaretAutomata

namespace Extent

mutual

/-- Trees of patterns have no empty concatenation. -/
theorem filled_of_wellBuiltAt : ∀ {e : Extent} {place : Place}, e.WellBuiltAt place → e.Filled
  | leaf _, _, _ => trivial
  | concatenation _, _, h => ⟨h.1, filledAll_of_wellBuiltAll h.2.2⟩
  | union _, _, h => filledAll_of_wellBuiltAll h.2
  | repetition body, _, h => by
    have hbody : body.Filled := by
      cases wellBuiltAt_repetition_iff.mp h with
      | inl hleaf =>
        obtain ⟨c, rfl, -⟩ := hleaf
        exact trivial
      | inr hbody => exact filled_of_wellBuiltAt hbody
    exact hbody

theorem filledAll_of_wellBuiltAll : ∀ {es : List Extent} {place : Place}, WellBuiltAll place es →
    FilledAll es
  | [], _, _ => trivial
  | _ :: _, _, h => ⟨filled_of_wellBuiltAt h.1, filledAll_of_wellBuiltAll h.2⟩

end

theorem WellBuilt.filled {e : Extent} (h : e.WellBuilt) : e.Filled := filled_of_wellBuiltAt h

end Extent

namespace Pattern

open Extent

/-- The pattern compiles under the limits that allow its length and the given depth, under these
alone, and to the given automaton. -/
def CompilesTo (pattern : String) (depth : Nat) (a : Automaton) : Prop :=
  ∀ (limits : Limits) (b : Automaton), compile limits pattern = .ok b ↔
    pattern.length ≤ limits.maxLength ∧ depth ≤ limits.maxDepth ∧ b = a

theorem compilesTo_of_spelling {pattern : String} {e : Expression}
    (h : e.spelling = collapse pattern.toList) :
    CompilesTo pattern e.tree.nesting e.tree.compile := by
  intro limits b
  have hne : pattern ≠ "" := by
    rintro rfl
    exact absurd (congrArg List.length h) (Nat.ne_of_gt e.length_spelling_pos)
  constructor
  · intro hcompile
    obtain ⟨e', hspelling, hparse, rfl⟩ := expression_of_compile hne hcompile
    obtain rfl := Expression.eq_of_spelling_eq (hspelling.trans h.symm)
    obtain ⟨hlength, hdepth⟩ := within_of_parse hparse
    exact ⟨hlength, hdepth, rfl⟩
  · intro hlimits
    obtain ⟨hlength, hdepth, rfl⟩ := hlimits
    exact compile_of_parse hne (parse_spelling h hlength hdepth)

/-! ## Brackets around a pattern -/

/-- The text of an expression in brackets, perhaps with a marker behind them. -/
theorem spelling_brackets {e : Expression} {text : List Char} (h : e.spelling = collapse text)
    (starred : Bool) : (Expression.one (.one (.group e starred))).spelling =
      collapse ('(' :: (text ++ ')' :: markerIf starred)) := by
  have hclose : (')' :: markerIf starred).head? ≠ some '^' := by simp
  rw [collapse_cons_of_ne (by decide), collapse_append _ hclose, collapse_cons_of_ne (by decide),
    collapse_markerIf, ← h]
  rfl

theorem spelling_plainGroup {pattern : String} {e : Expression}
    (h : e.spelling = collapse pattern.toList) :
    (Expression.one (.one (.group e false))).spelling = collapse ("(" ++ pattern ++ ")").toList := by
  rw [spelling_brackets h false]
  simp [markerIf]

theorem spelling_starredGroup {pattern : String} {e : Expression}
    (h : e.spelling = collapse pattern.toList) :
    (Expression.one (.one (.group e true))).spelling = collapse ("(" ++ pattern ++ ")^").toList := by
  rw [spelling_brackets h true]
  simp [markerIf]

/-! ## What they add to the tree -/

theorem Expression.nesting_content_le (e : Expression) : e.content.nesting ≤ e.tree.nesting + 1 := by
  cases hstarred : e.isStarredGroup with
  | false =>
    rw [Expression.tree_eq_content hstarred]
    exact Nat.le_succ _
  | true =>
    rw [Expression.content_of_isStarredGroup hstarred, nesting, nestingAll, nestingAll, Nat.max_zero]

theorem Expression.compile_content (e : Expression) : e.content.compile = e.tree.compile := by
  cases hstarred : e.isStarredGroup with
  | false => rw [Expression.tree_eq_content hstarred]
  | true =>
    have hfilled : (concatenation [e.tree]).Filled :=
      ⟨List.cons_ne_nil _ _, e.wellBuilt_tree.filled, trivial⟩
    have hlone := ofExtent_eq_of_simplifies hfilled
      (.single (.here (.onePart e.wellBuilt_tree.isLeaf)))
    rw [Expression.content_of_isStarredGroup hstarred, Extent.compile, Extent.compile, hlone]

theorem Expression.compile_repeated_twice (e : Expression) :
    (repetition (repetition e.tree)).compile = (repetition e.tree).compile := by
  have htwice := ofExtent_eq_of_simplifies (e := repetition (repetition e.tree))
    e.wellBuilt_tree.filled (.single (.here (.repeatedTwice e.wellBuilt_tree.isLeaf)))
  rw [Extent.compile, Extent.compile, htwice]

theorem Expression.nesting_repetition (e : Expression) :
    (repetition e.tree).nesting = e.tree.nesting + 1 := by
  simp [Extent.nesting_repetition, e.wellBuilt_tree.isLeaf]

/-- Brackets around a pattern take a level at most and change nothing; a marker behind them takes
one, and behind another marker one more for the same automaton. -/
theorem compilesTo_brackets {limits : Limits} {pattern : String} {a : Automaton}
    (hne : pattern ≠ "") (h : compile limits pattern = .ok a) :
    ∃ depth ≤ limits.maxDepth, CompilesTo pattern depth a ∧
      (∃ inside ≤ depth + 1, CompilesTo ("(" ++ pattern ++ ")") inside a) ∧
      ∃ b, CompilesTo ("(" ++ pattern ++ ")^") (depth + 1) b ∧
        CompilesTo ("((" ++ pattern ++ ")^)^") (depth + 2) b := by
  obtain ⟨e, hspelling, hparse, rfl⟩ := expression_of_compile hne h
  have hgroup := spelling_plainGroup hspelling
  have hstarred := spelling_starredGroup hspelling
  have htwice := spelling_starredGroup hstarred
  have htext : "(" ++ ("(" ++ pattern ++ ")^") ++ ")^" = "((" ++ pattern ++ ")^)^" := by
    simp [← String.toList_inj]
  rw [htext] at htwice
  refine ⟨e.tree.nesting, (within_of_parse hparse).2, compilesTo_of_spelling hspelling,
    ⟨e.content.nesting, e.nesting_content_le, ?_⟩, (repetition e.tree).compile, ?_, ?_⟩
  · rw [← e.compile_content]
    exact compilesTo_of_spelling hgroup
  · rw [← e.nesting_repetition]
    exact compilesTo_of_spelling hstarred
  · have hnesting : (repetition (repetition e.tree)).nesting = e.tree.nesting + 2 :=
      (Expression.nesting_repetition (.one (.one (.group e true)))).trans
        (congrArg (· + 1) e.nesting_repetition)
    rw [← hnesting, ← e.compile_repeated_twice]
    exact compilesTo_of_spelling htwice

end Pattern

open Pattern

/-- **Redundant structure does not change the automaton**: not in a tree, however many redundant
extents are replaced in it and wherever they stand, and not in a pattern, which may be put between
brackets and whose repetition may be repeated. The limits have to let the longer pattern through;
the depth they have to allow for it is at most the pattern's own and one more for each pair of
brackets. -/
theorem redundant_structure_keeps_automaton :
    (∀ {e e' : Extent}, e.Filled → Relation.ReflTransGen Extent.Simplifies e e' →
      Automaton.ofExtent e = Automaton.ofExtent e') ∧
    ∀ {limits : Limits} {pattern : String} {a : Automaton}, pattern ≠ "" →
      compile limits pattern = .ok a →
      ∃ depth ≤ limits.maxDepth, CompilesTo pattern depth a ∧
        (∃ inside ≤ depth + 1, CompilesTo ("(" ++ pattern ++ ")") inside a) ∧
        ∃ b, CompilesTo ("(" ++ pattern ++ ")^") (depth + 1) b ∧
          CompilesTo ("((" ++ pattern ++ ")^)^") (depth + 2) b :=
  ⟨Extent.ofExtent_eq_of_simplifies, compilesTo_brackets⟩

/-- The tree of `x(a((b)^)^)`. -/
def nestedLoops : Extent :=
  .concatenation
    [.leaf 'x', .concatenation [.leaf 'a', .repetition (.repetition (.literal ['b']))]]

/-- The tree of `xa(b)^`. -/
def flatLoop : Extent := .concatenation [.leaf 'x', .leaf 'a', .repetition (.literal ['b'])]

/-- The tree of `(a|b^)^`. -/
def loopOverUnion : Extent :=
  .repetition (.union [.literal ['a'], .concatenation [.repetition (.leaf 'b')]])

theorem nestedLoops_simplifies_flatLoop :
    Relation.ReflTransGen Extent.Simplifies nestedLoops flatLoop := by
  have hsplice := Extent.Simplifies.here (.nestedConcatenation [.leaf 'x']
    [.leaf 'a', .repetition (.repetition (.literal ['b']))] [])
  have htwice := Extent.Simplifies.part [.leaf 'x', .leaf 'a'] []
    (.here (.repeatedTwice (e := .literal ['b']) rfl))
  exact .tail (.single hsplice) htwice

/-- In brackets the starred group is the only part of a concatenation. -/
theorem redundant_structure_keeps_automaton_loops :
    nestedLoops.Filled ∧ Relation.ReflTransGen Extent.Simplifies nestedLoops flatLoop ∧
    Automaton.ofExtent nestedLoops = Automaton.ofExtent flatLoop ∧
    "(a|b^)^" ≠ "" ∧ compile {} "(a|b^)^" = .ok loopOverUnion.compile ∧
    ∃ depth ≤ ({} : Limits).maxDepth, CompilesTo "(a|b^)^" depth loopOverUnion.compile ∧
      (∃ inside ≤ depth + 1, CompilesTo ("(" ++ "(a|b^)^" ++ ")") inside loopOverUnion.compile) ∧
      ∃ b, CompilesTo ("(" ++ "(a|b^)^" ++ ")^") (depth + 1) b ∧
        CompilesTo ("((" ++ "(a|b^)^" ++ ")^)^") (depth + 2) b := by
  have hfilled : nestedLoops.Filled := by
    simp [nestedLoops, Extent.literal, Extent.Filled, Extent.FilledAll]
  have hne : "(a|b^)^" ≠ "" := by decide
  have hcompile : compile {} "(a|b^)^" = .ok loopOverUnion.compile := rfl
  exact ⟨hfilled, nestedLoops_simplifies_flatLoop,
    redundant_structure_keeps_automaton.1 hfilled nestedLoops_simplifies_flatLoop, hne, hcompile,
    redundant_structure_keeps_automaton.2 hne hcompile⟩

end CaretAutomata

import CaretAutomata.Proofs.Pattern.Depth
import CaretAutomata.Proofs.Pattern.WellBuilt

/-!
# Writing a tree back

`Extent.toPattern` writes the tree of a pattern as a pattern again, with as few brackets as the
grammar lets it. `parse_toPattern` says what is lost on the way there and back: of the text some
brackets and nothing else (`Unbracketed`), of the tree the concatenations that hold a repeated group
alone (`Extent.unwrap`), and of the automaton nothing at all. The limits that let the pattern through
let the shorter text through as well: it is no longer, and its tree is no deeper.
-/

namespace CaretAutomata.Pattern

open Extent

/-! ## Deleting brackets -/

/-- The second text is what is left of the first one when some of its brackets are deleted. -/
inductive Unbracketed : List Char → List Char → Prop where
  | nil : Unbracketed [] []
  | keep (c : Char) {text left : List Char} : Unbracketed text left →
      Unbracketed (c :: text) (c :: left)
  | delete {c : Char} {text left : List Char} (h : c = '(' ∨ c = ')') : Unbracketed text left →
      Unbracketed (c :: text) left

namespace Unbracketed

variable {text text' left left' : List Char}

theorem refl : ∀ text : List Char, Unbracketed text text
  | [] => nil
  | c :: rest => keep c (refl rest)

theorem append (h : Unbracketed text left) (h' : Unbracketed text' left') :
    Unbracketed (text ++ text') (left ++ left') := by
  induction h with
  | nil => exact h'
  | keep c _ ih => exact keep c ih
  | delete hc _ ih => exact delete hc ih

/-- A pair of brackets may be kept or deleted. -/
theorem group (needed : Bool) (h : Unbracketed text left) (h' : Unbracketed text' left') :
    Unbracketed ('(' :: (text ++ ')' :: text')) (bracketIf needed left ++ left') := by
  cases needed with
  | true =>
    rw [bracketIf_true, List.cons_append, List.append_assoc, List.singleton_append]
    exact keep '(' (h.append (keep ')' h'))
  | false => exact delete (.inl rfl) (h.append (delete (.inr rfl) h'))

theorem length_le (h : Unbracketed text left) : left.length ≤ text.length := by
  induction h with
  | nil => exact Nat.le_refl 0
  | keep c _ ih => exact Nat.succ_le_succ ih
  | delete _ _ ih => exact Nat.le_succ_of_le ih

end Unbracketed

/-- A group without a marker, with or without its brackets. -/
theorem unbracketed_group {body : Expression} {left : List Char} (needed : Bool)
    (h : Unbracketed body.spelling left) :
    Unbracketed (Item.group body false).spelling (bracketIf needed left) := by
  rw [← List.append_nil (bracketIf needed left)]
  exact .group needed h .nil

/-- A part with nothing beside it is written as it is among others. -/
theorem unbracketed_concatenation_one {text : List Char} {part : Extent}
    (h : Unbracketed text (bracketIf (!part.isUnit) part.spelling)) :
    Unbracketed text (concatenation [part]).spelling := by
  rw [Extent.spelling, spellParts_cons, spellParts, List.append_nil]
  exact h

/-- An alternative in front of others, with the bar between them. -/
theorem unbracketed_alternatives {text rest : List Char} {first : Extent} {others : List Extent}
    (hne : others ≠ []) (hfirst : Unbracketed text (bracketIf first.isUnion first.spelling))
    (hothers : Unbracketed rest (spellAlternatives others)) :
    Unbracketed (text ++ '|' :: rest) (spellAlternatives (first :: others)) := by
  rw [spellAlternatives_cons first hne]
  exact hfirst.append (.keep '|' hothers)

mutual

/-- **A tree is written with the text it was read from, less some brackets.** -/
theorem Expression.unbracketed_tree : ∀ e : Expression, Unbracketed e.spelling e.tree.spelling
  | .one a => a.unbracketed_tree false (by simp)
  | .more a others =>
    unbracketed_alternatives others.trees_ne_nil (a.unbracketed_tree _ id) others.unbracketed_trees

theorem Expression.unbracketed_trees : ∀ e : Expression,
    Unbracketed e.spelling (spellAlternatives e.trees)
  | .one a => a.unbracketed_tree _ id
  | .more a others =>
    unbracketed_alternatives others.trees_ne_nil (a.unbracketed_tree _ id) others.unbracketed_trees

theorem Expression.unbracketed_content : ∀ e : Expression,
    Unbracketed e.spelling e.content.spelling
  | .one (.one (.group body false)) => unbracketed_group false body.unbracketed_content
  | .one (.one (.group body true)) =>
    unbracketed_concatenation_one (Item.unbracketed_tree (.group body true))
  | .one (.one (.sign c starred)) =>
    unbracketed_concatenation_one (Item.unbracketed_tree (.sign c starred))
  | .one (.more i others) => i.unbracketed_tree.append others.unbracketed_trees
  | .more a others =>
    unbracketed_alternatives others.trees_ne_nil (a.unbracketed_tree _ id) others.unbracketed_trees

/-- Around a union the brackets may be kept. -/
theorem Alternative.unbracketed_tree : ∀ (a : Alternative) (needed : Bool),
    (needed = true → a.tree.isUnion = true) →
    Unbracketed a.spelling (bracketIf needed a.tree.spelling)
  | .one (.group body true), false, _ => Item.unbracketed_tree (.group body true)
  | .one (.group _ true), true, h => absurd (h rfl) Bool.false_ne_true
  | .one (.group body false), needed, _ => unbracketed_group needed body.unbracketed_content
  | .one (.sign c starred), false, _ =>
    unbracketed_concatenation_one (Item.unbracketed_tree (.sign c starred))
  | .one (.sign _ _), true, h => absurd (h rfl) Bool.false_ne_true
  | .more i others, false, _ => i.unbracketed_tree.append others.unbracketed_trees
  | .more _ _, true, h => absurd (h rfl) Bool.false_ne_true

theorem Alternative.unbracketed_trees : ∀ a : Alternative,
    Unbracketed a.spelling (spellParts a.trees)
  | .one i => unbracketed_concatenation_one i.unbracketed_tree
  | .more i others => i.unbracketed_tree.append others.unbracketed_trees

theorem Item.unbracketed_tree : ∀ i : Item,
    Unbracketed i.spelling (bracketIf (!i.tree.isUnit) i.tree.spelling)
  | .sign _ false => .refl _
  | .sign _ true => .refl _
  | .group body true => body.unbracketed_tree.group _ (.refl ['^'])
  | .group body false => unbracketed_group _ body.unbracketed_content

end

/-! ## Spellings are collapsed -/

theorem Item.exists_head_spelling (i : Item) : ∃ c, c ≠ '^' ∧ i.spelling.head? = some c := by
  cases i with
  | sign c starred => exact ⟨c.val, c.property.2.2.2, rfl⟩
  | group body starred => exact ⟨'(', by decide, rfl⟩

theorem Alternative.head?_spelling (a : Alternative) : a.spelling.head? ≠ some '^' := by
  cases a with
  | one i =>
    obtain ⟨c, hne, hc⟩ := i.exists_head_spelling
    rw [Alternative.spelling, hc]
    exact fun h => hne (Option.some.inj h)
  | more i others =>
    obtain ⟨c, hne, hc⟩ := i.exists_head_spelling
    rw [Alternative.spelling, List.head?_append, hc]
    exact fun h => hne (Option.some.inj h)

theorem collapse_markerIf (starred : Bool) : collapse (markerIf starred) = markerIf starred := by
  cases starred <;> rfl

mutual

theorem Expression.collapse_spelling : ∀ e : Expression, collapse e.spelling = e.spelling
  | .one a => a.collapse_spelling
  | .more a others => by
    have hbar : ('|' :: others.spelling).head? ≠ some '^' := by simp
    rw [Expression.spelling, collapse_append _ hbar, a.collapse_spelling,
      collapse_cons_of_ne (by decide), others.collapse_spelling]

theorem Alternative.collapse_spelling : ∀ a : Alternative, collapse a.spelling = a.spelling
  | .one i => i.collapse_spelling
  | .more i others => by
    rw [Alternative.spelling, collapse_append _ others.head?_spelling, i.collapse_spelling,
      others.collapse_spelling]

theorem Item.collapse_spelling : ∀ i : Item, collapse i.spelling = i.spelling
  | .sign c starred => by
    rw [Item.spelling, collapse_cons_of_ne c.property.2.2.2, collapse_markerIf]
  | .group body starred => by
    have hclose : (')' :: markerIf starred).head? ≠ some '^' := by simp
    rw [Item.spelling, collapse_cons_of_ne (by decide), collapse_append _ hclose,
      body.collapse_spelling, collapse_cons_of_ne (by decide), collapse_markerIf]

end

/-! ## There and back -/

/-- **A tree that is written back is read again, and nothing but brackets is lost.** The pattern of a
tree that was read is the collapsed text less some brackets; the limits that the text kept are kept
by the pattern too; what is read from it is the tree, unwrapped. This tree is written as the same
pattern and has the same automaton, and it is the first tree unless there was something to unwrap. -/
theorem parse_toPattern {limits : Limits} {pattern : String} {t : Extent}
    (h : parse limits pattern = .ok t) :
    Unbracketed (collapse pattern.toList) t.toPattern.toList ∧
    parse limits t.toPattern = .ok t.unwrap ∧
    t.unwrap.toPattern = t.toPattern ∧
    Automaton.ofExtent t.unwrap = Automaton.ofExtent t ∧
    (t.unwrap = t ↔ t.Bare) := by
  obtain ⟨hlength, hnesting⟩ := within_of_parse h
  obtain ⟨e, hspelling, rfl⟩ := expression_of_parse h
  obtain ⟨e', hwrites⟩ := exists_expression_of_wellBuilt e.wellBuilt_tree
  have htext : e.tree.toPattern.toList = e'.spelling := by
    rw [toPattern, String.toList_ofList, hwrites.spelling]
  have hless : Unbracketed (collapse pattern.toList) e'.spelling := by
    rw [← hspelling, hwrites.spelling]
    exact e.unbracketed_tree
  have hshort : e.tree.toPattern.length ≤ limits.maxLength := by
    calc e.tree.toPattern.length
        = e'.spelling.length := by rw [← String.length_toList, htext]
      _ ≤ (collapse pattern.toList).length := hless.length_le
      _ ≤ pattern.toList.length := length_collapse_le _
      _ = pattern.length := String.length_toList
      _ ≤ limits.maxLength := hlength
  have hshallow : e'.tree.nesting ≤ limits.maxDepth := by
    rw [hwrites.tree]
    exact Nat.le_trans (nesting_unwrapAt_le .alone e.tree) hnesting
  have hparse : parse limits e.tree.toPattern = .ok e'.tree :=
    parse_spelling (by rw [htext, e'.collapse_spelling]) hshort hshallow
  rw [hwrites.tree] at hparse
  exact ⟨by rw [htext]; exact hless, hparse, toPattern_unwrap _, ofExtent_unwrap _,
    unwrap_eq_self_iff⟩

/-- In `(((a)^))c|((b)^)` one repetition stands among other parts and keeps its brackets; the other
one is an alternative and loses them. -/
theorem parse_toPattern_loneRepetitions :
    let a : Extent := .repetition (.literal ['a'])
    let b : Extent := .repetition (.literal ['b'])
    let before : Extent := .union
      [.concatenation [.concatenation [a], .leaf 'c'], .concatenation [b]]
    let after : Extent := .union [.concatenation [.concatenation [a], .leaf 'c'], b]
    parse {} "(((a)^))c|((b)^)" = .ok before ∧
    Unbracketed "(((a)^))c|((b)^)".toList "((a)^)c|(b)^".toList ∧
    parse {} "((a)^)c|(b)^" = .ok after ∧
    after.toPattern = "((a)^)c|(b)^" ∧
    Automaton.ofExtent after = Automaton.ofExtent before ∧
    (after = before ↔ before.Bare) := by
  intro a b before after
  have hparse : parse {} "(((a)^))c|((b)^)" = .ok before := rfl
  exact ⟨hparse, parse_toPattern hparse⟩

end CaretAutomata.Pattern

import CaretAutomata.Proofs.Extent.Language
import CaretAutomata.Proofs.Pattern.Grammar

/-!
# The language of a pattern

What a pattern stands for can be said without its tree: items follow one another, alternatives are
alternatives, a marker repeats what is in front of it, and brackets mean nothing at all. This is
`Expression.language`. The tree is built in a less straightforward way — brackets around everything
are dropped, one kind of starred group is looked for before that and not after — and
`Expression.language_tree` says that none of it changes the words.
-/

namespace CaretAutomata.Pattern

open Computability Extent

/-- The words of a starred item are those of any number of occurrences of it. -/
def starIf (starred : Bool) (words : Language Char) : Language Char :=
  if starred then words∗ else words

mutual

/-- The words that an expression stands for. -/
def Expression.language : Expression → Language Char
  | .one a => a.language
  | .more a others => a.language + others.language

def Alternative.language : Alternative → Language Char
  | .one i => i.language
  | .more i others => i.language * others.language

def Item.language : Item → Language Char
  | .sign c starred => starIf starred {[c.val]}
  | .group body starred => starIf starred body.language

end

theorem language_concatenation_one (e : Extent) : (concatenation [e]).language = e.language := by
  rw [Extent.language, languageParts, languageParts, mul_one]

mutual

/-- **The tree of an expression has the expression's words.** -/
theorem Expression.language_tree : ∀ e : Expression, e.tree.language = e.language
  | .one a => a.language_tree
  | .more a others => by
    rw [Expression.tree, Extent.language, languageAlternatives, a.language_tree,
      others.language_trees]
    rfl

theorem Expression.language_trees : ∀ e : Expression, languageAlternatives e.trees = e.language
  | .one a => by
    rw [Expression.trees, languageAlternatives, languageAlternatives, add_zero, a.language_tree]
    rfl
  | .more a others => by
    rw [Expression.trees, languageAlternatives, a.language_tree, others.language_trees]
    rfl

theorem Expression.language_content : ∀ e : Expression, e.content.language = e.language
  | .one (.one (.group body false)) => body.language_content
  | .one (.one (.group body true)) => by
    show (concatenation [(Item.group body true).tree]).language = _
    rw [language_concatenation_one, Item.language_tree]
    rfl
  | .one (.one (.sign c starred)) => by
    show (concatenation [(Item.sign c starred).tree]).language = _
    rw [language_concatenation_one, Item.language_tree]
    rfl
  | .one (.more i others) => by
    rw [Expression.content, Extent.language, languageParts, i.language_tree, others.language_trees]
    rfl
  | .more a others => by
    rw [Expression.content, Extent.language, languageAlternatives, a.language_tree,
      others.language_trees]
    rfl

theorem Alternative.language_tree : ∀ a : Alternative, a.tree.language = a.language
  | .one (.group body true) => congrArg KStar.kstar body.language_tree
  | .one (.group body false) => body.language_content
  | .one (.sign c starred) => by
    show (concatenation [(Item.sign c starred).tree]).language = _
    rw [language_concatenation_one, Item.language_tree]
    rfl
  | .more i others => by
    rw [Alternative.tree, Extent.language, languageParts, i.language_tree, others.language_trees]
    rfl

theorem Alternative.language_trees : ∀ a : Alternative, languageParts a.trees = a.language
  | .one i => by
    rw [Alternative.trees, languageParts, languageParts, mul_one, i.language_tree]
    rfl
  | .more i others => by
    rw [Alternative.trees, languageParts, i.language_tree, others.language_trees]
    rfl

theorem Item.language_tree : ∀ i : Item, i.tree.language = i.language
  | .sign _ false => rfl
  | .sign _ true => rfl
  | .group body true => congrArg KStar.kstar body.language_tree
  | .group body false => body.language_content

end

end CaretAutomata.Pattern

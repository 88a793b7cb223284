import CaretAutomata.Proofs.Pattern.RoundTrip

/-!
# Trees that come back as they were

A tree can be put together by hand from whatever parts, with brackets and bars for leaves, with
unions of nothing and concatenations within concatenations. What it is written as may then be no
pattern, or the pattern of another tree. `Extent.Canonical` says of which trees neither is true, and
`parse_toPattern_eq_self_iff` that it says so exactly: such a tree is read back under all limits that
its length and its nesting keep, any other tree under none.

One half asks for an expression that is written like the tree and has it for its tree, and that was
built already (`exists_expression_of_wellBuilt`). The other half starts from a tree that came back.
It is the tree of an expression, so it is well built, and there are two expressions now: this one,
and the one built from the tree. Both have the same spelling, so they are one, and the tree is its
own unwrapping.
-/

namespace CaretAutomata

namespace Extent

/-- The tree is built as those of patterns are, and has no concatenation of a single repeated group,
except among the parts of another one. -/
structure Canonical (t : Extent) : Prop where
  wellBuilt : t.WellBuilt
  bare : t.Bare

end Extent

namespace Pattern

open Extent

variable {limits : Limits} {t : Extent}

theorem toList_toPattern (t : Extent) : t.toPattern.toList = t.spelling :=
  String.toList_ofList

/-- The tree of an expression that is written as this expression is canonical. -/
theorem canonical_of_spelling {e : Expression} (h : e.spelling = e.tree.spelling) :
    e.tree.Canonical := by
  have hbuilt := e.wellBuilt_tree
  obtain ⟨e', hwrites⟩ := exists_expression_of_wellBuilt hbuilt
  obtain rfl : e' = e := Expression.eq_of_spelling_eq (hwrites.spelling.trans h.symm)
  exact ⟨hbuilt, unwrap_eq_self_iff.mp hwrites.tree.symm⟩

theorem canonical_of_parse (h : parse limits t.toPattern = .ok t) : t.Canonical := by
  obtain ⟨e, hspelling, rfl⟩ := expression_of_parse h
  apply canonical_of_spelling
  -- the pattern is the spelling of an expression already, so there is no run to collapse
  obtain ⟨e', hwrites⟩ := exists_expression_of_wellBuilt e.wellBuilt_tree
  rw [hspelling, toList_toPattern, ← hwrites.spelling, e'.collapse_spelling]

/-- A canonical tree is that of an expression which is spelled like it. -/
theorem exists_expression_of_canonical (h : t.Canonical) :
    ∃ e : Expression, e.spelling = collapse t.toPattern.toList ∧ e.tree = t := by
  obtain ⟨e, hwrites⟩ := exists_expression_of_wellBuilt h.wellBuilt
  refine ⟨e, ?_, hwrites.tree.trans (unwrap_eq_self_iff.mpr h.bare)⟩
  rw [toList_toPattern, ← hwrites.spelling, e.collapse_spelling]

theorem parse_of_canonical (h : t.Canonical) (hlength : t.toPattern.length ≤ limits.maxLength)
    (hnesting : t.nesting ≤ limits.maxDepth) : parse limits t.toPattern = .ok t := by
  obtain ⟨e, hspelling, rfl⟩ := exists_expression_of_canonical h
  exact parse_spelling hspelling hlength hnesting

/-- A canonical tree is nested no deeper than its pattern is long. -/
theorem nesting_le_of_canonical (h : t.Canonical) : t.nesting ≤ t.toPattern.length := by
  obtain ⟨e, hspelling, rfl⟩ := exists_expression_of_canonical h
  have hcollapsed : (collapse e.tree.toPattern.toList).length ≤ e.tree.toPattern.length := by
    rw [← String.length_toList]
    exact length_collapse_le _
  let limits : Limits := ⟨e.tree.toPattern.length, e.tree.toPattern.length⟩
  have hparse : parse limits e.tree.toPattern = .ok e.tree :=
    parse_of_spelling (Nat.le_refl _) hcollapsed hspelling
  exact (within_of_parse hparse).2

/-- **A tree that is written comes back as it was exactly if it is canonical**, where the limits
allow for what is written. They do so if they allow for the number of its characters and for the
nesting of the tree, which is no larger. -/
theorem parse_toPattern_eq_self_iff (limits : Limits) (t : Extent) :
    (parse limits t.toPattern = .ok t ↔
      t.Canonical ∧ t.toPattern.length ≤ limits.maxLength ∧ t.nesting ≤ limits.maxDepth) ∧
    (t.toPattern.length ≤ limits.maxLength → t.toPattern.length ≤ limits.maxDepth →
      (parse limits t.toPattern = .ok t ↔ t.Canonical)) := by
  have hexact : parse limits t.toPattern = .ok t ↔
      t.Canonical ∧ t.toPattern.length ≤ limits.maxLength ∧ t.nesting ≤ limits.maxDepth := by
    constructor
    · intro h
      exact ⟨canonical_of_parse h, within_of_parse h⟩
    · intro h
      obtain ⟨hcanonical, hlength, hnesting⟩ := h
      exact parse_of_canonical hcanonical hlength hnesting
  refine ⟨hexact, fun hlength hdepth => ?_⟩
  rw [hexact]
  constructor
  · exact And.left
  · intro h
    exact ⟨h, hlength, Nat.le_trans (nesting_le_of_canonical h) hdepth⟩

/-- `((a)^)c` keeps the brackets around the repeated group, as it stands among others. A tree of
three leaves that is written `(a)` is not what this text is read as. -/
theorem parse_toPattern_eq_self_brackets :
    let grouped : Extent :=
      .concatenation [.concatenation [.repetition (.literal ['a'])], .leaf 'c']
    let leaves : Extent := .literal ['(', 'a', ')']
    (grouped.toPattern.length ≤ 7 ∧ parse ⟨7, 7⟩ grouped.toPattern = .ok grouped ∧
      grouped.Canonical) ∧
    (leaves.toPattern.length ≤ 7 ∧ parse ⟨7, 7⟩ leaves.toPattern ≠ .ok leaves ∧
      ¬ leaves.Canonical) := by
  intro grouped leaves
  have hgrouped : grouped.toPattern.length ≤ 7 := by decide
  have hleaves : leaves.toPattern.length ≤ 7 := by decide
  have hread : parse ⟨7, 7⟩ grouped.toPattern = .ok grouped := by decide
  have hother : parse ⟨7, 7⟩ leaves.toPattern ≠ .ok leaves := by decide
  have hiff := (parse_toPattern_eq_self_iff ⟨7, 7⟩ grouped).2 hgrouped hgrouped
  have hiff' := (parse_toPattern_eq_self_iff ⟨7, 7⟩ leaves).2 hleaves hleaves
  exact ⟨⟨hgrouped, hread, hiff.mp hread⟩, hleaves, hother, fun h => hother (hiff'.mpr h)⟩

end Pattern

end CaretAutomata

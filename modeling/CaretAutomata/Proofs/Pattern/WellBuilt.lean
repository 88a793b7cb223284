import CaretAutomata.Proofs.Extent.Unwrap
import CaretAutomata.Proofs.Pattern.Grammar

/-!
# Trees of patterns

Not every tree is the tree of a pattern. `WellBuiltAt` says which ones can be: leaves are ordinary
characters, nothing is empty, no union has a single alternative, no concatenation a single part that
would need brackets, and the repetition of a character is a part of something. The trees of
expressions are like this (`Expression.wellBuilt_tree`), and what such a tree is written as is again
the spelling of an expression, whose tree is the one we started from, unwrapped
(`exists_expression_of_wellBuilt`). The second half goes down the tree and builds the expression from
what the parts are written as: an item for each part of a concatenation, with brackets where a part
is no unit, and an alternative for each alternative of a union, with brackets where it is a union.
-/

namespace CaretAutomata

namespace Extent

/-- The character stands for itself in a pattern. -/
def IsOrdinary (c : Char) : Prop := c ≠ '(' ∧ c ≠ ')' ∧ c ≠ '|' ∧ c ≠ '^'

instance (c : Char) : Decidable (IsOrdinary c) :=
  inferInstanceAs (Decidable (c ≠ '(' ∧ c ≠ ')' ∧ c ≠ '|' ∧ c ≠ '^'))

mutual

/-- From `place` on, the tree is built as those of patterns are. -/
def WellBuiltAt : Place → Extent → Prop
  | place, leaf c => place = .part ∧ IsOrdinary c
  | _, concatenation parts =>
    parts ≠ [] ∧ (∀ e, parts = [e] → e.isUnit = true) ∧ WellBuiltAll .part parts
  | _, union alternatives => 2 ≤ alternatives.length ∧ WellBuiltAll .alone alternatives
  | place, repetition (leaf c) => place = .part ∧ IsOrdinary c
  | _, repetition body => WellBuiltAt .alone body

def WellBuiltAll : Place → List Extent → Prop
  | _, [] => True
  | place, e :: others => WellBuiltAt place e ∧ WellBuiltAll place others

end

/-- The tree is built as those of patterns are. -/
def WellBuilt (e : Extent) : Prop := e.WellBuiltAt .alone

theorem WellBuilt.isLeaf {e : Extent} (h : e.WellBuilt) : e.isLeaf = false := by
  cases e with
  | leaf c => exact absurd h.1 (by simp)
  | concatenation parts => rfl
  | union alternatives => rfl
  | repetition body => rfl

/-- The repetition of a character is a part of something; that of an extent can stand anywhere. -/
theorem wellBuiltAt_repetition_iff {body : Extent} {place : Place} :
    (repetition body).WellBuiltAt place ↔
      (∃ c, body = leaf c ∧ place = .part ∧ IsOrdinary c) ∨ body.WellBuilt := by
  cases body with
  | leaf c => simp [WellBuilt, WellBuiltAt]
  | concatenation parts => simp [WellBuilt, WellBuiltAt]
  | union alternatives => simp [WellBuilt, WellBuiltAt]
  | repetition body => simp [WellBuilt, WellBuiltAt]

theorem wellBuiltAt_concatenation_one {part : Extent} (hunit : part.isUnit = true)
    (h : part.WellBuiltAt .part) (place : Place) : (concatenation [part]).WellBuiltAt place :=
  ⟨List.cons_ne_nil _ _, fun _ he => List.singleton_inj.mp he ▸ hunit, h, trivial⟩

theorem wellBuiltAt_concatenation_more {first : Extent} {others : List Extent} (hne : others ≠ [])
    (hfirst : first.WellBuiltAt .part) (hothers : WellBuiltAll .part others) (place : Place) :
    (concatenation (first :: others)).WellBuiltAt place :=
  ⟨List.cons_ne_nil _ _, fun _ he => absurd (List.cons.inj he).2 hne, hfirst, hothers⟩

theorem wellBuiltAt_union {first : Extent} {others : List Extent} (hne : others ≠ [])
    (hfirst : first.WellBuilt) (hothers : WellBuiltAll .alone others) (place : Place) :
    (union (first :: others)).WellBuiltAt place :=
  ⟨Nat.succ_le_succ (List.length_pos_of_ne_nil hne), hfirst, hothers⟩

end Extent

namespace Pattern

open Extent

/-! ## Trees of expressions are built like this -/

theorem Expression.isUnit_content (e : Expression) : e.content.isUnit = false := by
  cases e with
  | more a others => rfl
  | one a =>
    cases a with
    | more i others => rfl
    | one i =>
      cases i with
      | sign c starred => rfl
      | group body starred =>
        cases starred with
        | true => rfl
        | false => exact body.isUnit_content

theorem Alternative.trees_ne_nil (a : Alternative) : a.trees ≠ [] := by
  cases a <;> simp [Alternative.trees]

theorem Expression.trees_ne_nil (e : Expression) : e.trees ≠ [] := by
  cases e <;> simp [Expression.trees]

theorem Item.isUnit_sign (c : Ordinary) (starred : Bool) :
    (Item.sign c starred).tree.isUnit = true := by
  cases starred <;> rfl

mutual

/-- **The tree of an expression is well built.** -/
theorem Expression.wellBuilt_tree : ∀ e : Expression, e.tree.WellBuilt
  | .one a => a.wellBuilt_tree
  | .more a others =>
    wellBuiltAt_union others.trees_ne_nil a.wellBuilt_tree others.wellBuilt_trees .alone

theorem Expression.wellBuilt_trees : ∀ e : Expression, WellBuiltAll .alone e.trees
  | .one a => ⟨a.wellBuilt_tree, trivial⟩
  | .more a others => ⟨a.wellBuilt_tree, others.wellBuilt_trees⟩

theorem Expression.wellBuilt_content : ∀ (e : Expression) (place : Place),
    e.content.WellBuiltAt place
  | .one (.one (.group body false)), place => body.wellBuilt_content place
  | .one (.one (.group body true)), place =>
    wellBuiltAt_concatenation_one rfl (Item.wellBuilt_tree (.group body true)) place
  | .one (.one (.sign c starred)), place =>
    wellBuiltAt_concatenation_one (Item.isUnit_sign c starred) (Item.wellBuilt_tree (.sign c starred))
      place
  | .one (.more i others), place =>
    wellBuiltAt_concatenation_more others.trees_ne_nil i.wellBuilt_tree others.wellBuilt_trees place
  | .more a others, place =>
    wellBuiltAt_union others.trees_ne_nil a.wellBuilt_tree others.wellBuilt_trees place

theorem Alternative.wellBuilt_tree : ∀ a : Alternative, a.tree.WellBuilt
  | .one (.group body true) => wellBuiltAt_repetition_iff.mpr (.inr body.wellBuilt_tree)
  | .one (.group body false) => body.wellBuilt_content .alone
  | .one (.sign c starred) =>
    wellBuiltAt_concatenation_one (Item.isUnit_sign c starred) (Item.wellBuilt_tree (.sign c starred))
      .alone
  | .more i others =>
    wellBuiltAt_concatenation_more others.trees_ne_nil i.wellBuilt_tree others.wellBuilt_trees .alone

theorem Alternative.wellBuilt_trees : ∀ a : Alternative, WellBuiltAll .part a.trees
  | .one i => ⟨i.wellBuilt_tree, trivial⟩
  | .more i others => ⟨i.wellBuilt_tree, others.wellBuilt_trees⟩

theorem Item.wellBuilt_tree : ∀ i : Item, i.tree.WellBuiltAt .part
  | .sign c false => ⟨rfl, c.property⟩
  | .sign c true => ⟨rfl, c.property⟩
  | .group body true => wellBuiltAt_repetition_iff.mpr (.inr body.wellBuilt_tree)
  | .group body false => body.wellBuilt_content .part

end

/-! ## What such a tree is written as -/

/-- The expression is what the tree is written as. Between brackets among other parts its content
is read, not its tree; that is asked of nothing but what is written with brackets there. -/
structure Expression.Writes (e : Expression) (t : Extent) : Prop where
  spelling : e.spelling = t.spelling
  tree : e.tree = t.unwrap
  content : t.isUnit = false → e.content = t.unwrapAt .part

/-- An alternative that no brackets enclose is the join of its items. -/
theorem Alternative.tree_eq_join : ∀ {a : Alternative}, (Expression.one a).isPlainGroup = false →
    a.tree = join .alone a.trees
  | .one (.group _ false), h => absurd h (by simp [Expression.isPlainGroup])
  | .one (.group body true), _ => by
    simp [Alternative.tree, Alternative.trees, Item.tree, join, isRepeatedGroup,
      body.wellBuilt_tree.isLeaf]
  | .one (.sign _ false), _ => rfl
  | .one (.sign _ true), _ => rfl
  | .more i (.one j), _ => rfl
  | .more i (.more j others), _ => rfl

/-- An item whose tree is a unit is no group without a marker. -/
theorem Item.isPlainGroup_of_isUnit : ∀ {i : Item}, i.tree.isUnit = true →
    (Expression.one (.one i)).isPlainGroup = false
  | .sign .., _ => rfl
  | .group _ true, _ => rfl
  | .group body false, h => absurd (h.symm.trans body.isUnit_content) (by simp)

theorem writes_concatenation {a : Alternative} {parts : List Extent}
    (hlone : ∀ e, parts = [e] → e.isUnit = true) (hspelling : a.spelling = spellParts parts)
    (htrees : a.trees = unwrapAll .part parts) :
    (Expression.one a).Writes (concatenation parts) := by
  have hplain : (Expression.one a).isPlainGroup = false := by
    match a, parts with
    | .more .., _ => rfl
    | .one i, [] => exact absurd htrees (by simp [Alternative.trees, unwrapAll])
    | .one i, [e] =>
      have hi : i.tree = e.unwrapAt .part := (List.cons.inj htrees).1
      exact Item.isPlainGroup_of_isUnit (by rw [hi, isUnit_unwrapAt_part, hlone e rfl])
    | .one i, e :: e' :: others => exact absurd htrees (by simp [Alternative.trees, unwrapAll])
  refine ⟨hspelling, ?_, fun _ => ?_⟩
  · rw [Expression.tree, Alternative.tree_eq_join hplain, htrees]
    rfl
  · rw [Expression.content_one hplain, htrees, unwrapAt, join_part]

theorem writes_union {e : Expression} {alternatives : List Extent} (hlength : 2 ≤ alternatives.length)
    (hspelling : e.spelling = spellAlternatives alternatives)
    (htrees : e.trees = unwrapAll .alone alternatives) : e.Writes (union alternatives) := by
  match e, alternatives with
  | .more a others, alternatives =>
    exact ⟨hspelling, congrArg union htrees, fun _ => congrArg union htrees⟩
  | .one a, [] => exact absurd hlength (by decide)
  | .one a, [_] => exact absurd hlength (by simp)
  | .one a, _ :: _ :: _ => exact absurd htrees (by simp [Expression.trees, unwrapAll])

theorem writes_repetition {e : Expression} {body : Extent} (hbody : body.isLeaf = false)
    (h : e.Writes body) : (Expression.one (.one (.group e true))).Writes (repetition body) := by
  refine ⟨?_, congrArg repetition h.tree, fun hunit => absurd hunit (by simp [isUnit])⟩
  simp [Expression.spelling, Alternative.spelling, Item.spelling, markerIf, Extent.spelling, hbody,
    bracketIf, h.spelling]

/-- What is written among parts: brackets are put around what is no unit. -/
theorem item_of_writes {e : Expression} {t : Extent} (hunit : t.isUnit = false) (h : e.Writes t) :
    (Item.group e false).spelling = bracketIf (!t.isUnit) t.spelling ∧
      (Item.group e false).tree = t.unwrapAt .part := by
  refine ⟨?_, h.content hunit⟩
  rw [hunit, Item.spelling, h.spelling]
  rfl

/-- What is written among alternatives: brackets are put around a union. -/
theorem exists_alternative_of_writes {e : Expression} {t : Extent} (h : e.Writes t) :
    ∃ a : Alternative, a.spelling = bracketIf t.isUnion t.spelling ∧ a.tree = t.unwrap := by
  cases t with
  | union alternatives =>
    refine ⟨.one (.group e false), ?_, h.content rfl⟩
    rw [Alternative.spelling, Item.spelling, h.spelling]
    rfl
  | leaf c | concatenation parts | repetition body =>
    cases e with
    | one a => exact ⟨a, h.spelling, h.tree⟩
    | more a others =>
      have hunion := congrArg isUnion h.tree
      rw [unwrap, isUnion_unwrapAt] at hunion
      exact absurd hunion (by simp [Expression.tree, isUnion])

mutual

theorem exists_item_of_wellBuiltAt : ∀ {t : Extent}, t.WellBuiltAt .part →
    ∃ i : Item, i.spelling = bracketIf (!t.isUnit) t.spelling ∧ i.tree = t.unwrapAt .part
  | leaf c, h => ⟨.sign ⟨c, h.2⟩ false, rfl, rfl⟩
  | concatenation parts, h => by
    obtain ⟨a, hspelling, htrees⟩ := exists_sequence_of_wellBuiltAll h.1 h.2.2
    exact ⟨_, item_of_writes rfl (writes_concatenation h.2.1 hspelling htrees)⟩
  | union alternatives, h => by
    obtain ⟨e, hspelling, htrees⟩ := exists_choice_of_wellBuiltAll
      (List.ne_nil_of_length_pos (Nat.lt_of_lt_of_le Nat.two_pos h.1)) h.2
    exact ⟨_, item_of_writes rfl (writes_union h.1 hspelling htrees)⟩
  | repetition body, h => by
    rcases wellBuiltAt_repetition_iff.mp h with ⟨c, rfl, -, hc⟩ | hbody
    · exact ⟨.sign ⟨c, hc⟩ true, rfl, rfl⟩
    · obtain ⟨e, he⟩ := exists_expression_of_wellBuilt hbody
      have hwrites := writes_repetition hbody.isLeaf he
      exact ⟨.group e true, hwrites.spelling, hwrites.tree⟩

theorem exists_sequence_of_wellBuiltAll : ∀ {ts : List Extent}, ts ≠ [] → WellBuiltAll .part ts →
    ∃ a : Alternative, a.spelling = spellParts ts ∧ a.trees = unwrapAll .part ts
  | [], hne, _ => absurd rfl hne
  | [t], _, h => by
    obtain ⟨i, hspelling, htree⟩ := exists_item_of_wellBuiltAt h.1
    refine ⟨.one i, ?_, congrArg ([·]) htree⟩
    rw [Alternative.spelling, hspelling, spellParts_cons, spellParts, List.append_nil]
  | t :: t' :: ts, _, h => by
    obtain ⟨i, hspelling, htree⟩ := exists_item_of_wellBuiltAt h.1
    obtain ⟨a, haspelling, hatrees⟩ := exists_sequence_of_wellBuiltAll (List.cons_ne_nil t' ts) h.2
    refine ⟨.more i a, ?_, ?_⟩
    · rw [Alternative.spelling, hspelling, haspelling, spellParts_cons t]
    · rw [Alternative.trees, htree, hatrees]
      rfl

theorem exists_expression_of_wellBuilt : ∀ {t : Extent}, t.WellBuilt → ∃ e : Expression, e.Writes t
  | leaf c, h => absurd h.1 (by simp)
  | concatenation parts, h => by
    obtain ⟨a, hspelling, htrees⟩ := exists_sequence_of_wellBuiltAll h.1 h.2.2
    exact ⟨.one a, writes_concatenation h.2.1 hspelling htrees⟩
  | union alternatives, h => by
    obtain ⟨e, hspelling, htrees⟩ := exists_choice_of_wellBuiltAll
      (List.ne_nil_of_length_pos (Nat.lt_of_lt_of_le Nat.two_pos h.1)) h.2
    exact ⟨e, writes_union h.1 hspelling htrees⟩
  | repetition body, h => by
    rcases wellBuiltAt_repetition_iff.mp h with ⟨c, rfl, hplace, -⟩ | hbody
    · exact absurd hplace (by simp)
    · obtain ⟨e, he⟩ := exists_expression_of_wellBuilt hbody
      exact ⟨_, writes_repetition hbody.isLeaf he⟩

theorem exists_choice_of_wellBuiltAll : ∀ {ts : List Extent}, ts ≠ [] → WellBuiltAll .alone ts →
    ∃ e : Expression, e.spelling = spellAlternatives ts ∧ e.trees = unwrapAll .alone ts
  | [], hne, _ => absurd rfl hne
  | [t], _, h => by
    obtain ⟨e, he⟩ := exists_expression_of_wellBuilt h.1
    obtain ⟨a, hspelling, htree⟩ := exists_alternative_of_writes he
    exact ⟨.one a, hspelling, congrArg ([·]) htree⟩
  | t :: t' :: ts, _, h => by
    obtain ⟨e, he⟩ := exists_expression_of_wellBuilt h.1
    obtain ⟨a, haspelling, hatree⟩ := exists_alternative_of_writes he
    obtain ⟨e', hspelling, htrees⟩ := exists_choice_of_wellBuiltAll (List.cons_ne_nil t' ts) h.2
    refine ⟨.more a e', ?_, ?_⟩
    · rw [Expression.spelling, haspelling, hspelling, spellAlternatives_cons t (by simp)]
    · rw [Expression.trees, hatree, htrees]
      rfl

end

end Pattern

end CaretAutomata

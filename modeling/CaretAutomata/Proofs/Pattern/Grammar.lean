import CaretAutomata.Extent.Basic
import CaretAutomata.Pattern.Outline

/-!
# The grammar of patterns

`Pattern.read` works on stretches of text and never says what a pattern *is*. This file says it:
an expression is a non-empty choice of alternatives, an alternative a non-empty sequence of items,
an item an ordinary character or an expression in brackets, perhaps with a marker behind it. The
types below hold nothing else — no empty group, no misplaced marker can be built — so a text is a
pattern exactly when it is the spelling of an expression, and the tree of a pattern is a function
of its expression (`Expression.tree`).

Between the two stands `Expression.nodes`, the expression as matched text. Every fact about
spellings goes through it: `spelling_nodes` says that nothing is lost on the way, and
`nodes_injective` that nothing is confused, which together make the grammar unambiguous
(`Expression.eq_of_spelling_eq`).
-/

namespace CaretAutomata.Pattern

/-- A character that stands for itself: no bracket, no bar and no marker. -/
abbrev Ordinary : Type := {c : Char // c ≠ '(' ∧ c ≠ ')' ∧ c ≠ '|' ∧ c ≠ '^'}

mutual

/-- Alternatives with bars between them. -/
inductive Expression where
  | one (alternative : Alternative)
  | more (alternative : Alternative) (others : Expression)

/-- Items one behind the other. -/
inductive Alternative where
  | one (item : Item)
  | more (item : Item) (others : Alternative)

/-- An ordinary character or an expression in brackets; a starred one has a marker behind it. -/
inductive Item where
  | sign (c : Ordinary) (starred : Bool)
  | group (body : Expression) (starred : Bool)

end

/-! ## The text of an expression -/

/-- The marker behind a starred item. -/
def markerIf (starred : Bool) : List Char := if starred then ['^'] else []

mutual

def Expression.spelling : Expression → List Char
  | .one a => a.spelling
  | .more a others => a.spelling ++ '|' :: others.spelling

def Alternative.spelling : Alternative → List Char
  | .one i => i.spelling
  | .more i others => i.spelling ++ others.spelling

def Item.spelling : Item → List Char
  | .sign c starred => c.val :: markerIf starred
  | .group body starred => '(' :: (body.spelling ++ ')' :: markerIf starred)

end

/-! ## The tree of an expression

A starred group alone is the repetition of what it holds. Otherwise the groups that enclose the
whole expression are left out — and behind them no starred group is looked for again, so `((a)^)`
is a sequence of one repetition, while `(a)^` is that repetition itself. -/

mutual

def Expression.tree : Expression → Extent
  | .one a => a.tree
  | .more a others => .union (a.tree :: others.trees)

def Expression.trees : Expression → List Extent
  | .one a => [a.tree]
  | .more a others => a.tree :: others.trees

/-- The tree of what the groups around the whole expression enclose: a union of alternatives or a
concatenation of items. -/
def Expression.content : Expression → Extent
  | .one (.one (.group body false)) => body.content
  | .one (.one i) => .concatenation [i.tree]
  | .one (.more i others) => .concatenation (i.tree :: others.trees)
  | .more a others => .union (a.tree :: others.trees)

/-- The tree of an alternative that stands for itself. -/
def Alternative.tree : Alternative → Extent
  | .one (.group body true) => .repetition body.tree
  | .one (.group body false) => body.content
  | .one i => .concatenation [i.tree]
  | .more i others => .concatenation (i.tree :: others.trees)

def Alternative.trees : Alternative → List Extent
  | .one i => [i.tree]
  | .more i others => i.tree :: others.trees

/-- The tree of an item among others. -/
def Item.tree : Item → Extent
  | .sign c false => .leaf c
  | .sign c true => .repetition (.leaf c)
  | .group body true => .repetition body.tree
  | .group body false => body.content

end

/-- The expression without the groups that enclose all of it. -/
def Expression.opened : Expression → Expression
  | .one (.one (.group body false)) => body.opened
  | e => e

/-- The expression is a starred group and nothing else. -/
def Expression.isStarredGroup : Expression → Bool
  | .one (.one (.group _ true)) => true
  | _ => false

/-- The expression is a group without a marker and nothing else. -/
def Expression.isPlainGroup : Expression → Bool
  | .one (.one (.group _ false)) => true
  | _ => false

/-- Nothing encloses all of an opened expression any more. -/
theorem Expression.isPlainGroup_opened : ∀ e : Expression, e.opened.isPlainGroup = false
  | .one (.one (.group body false)) => by
    rw [opened]
    exact body.isPlainGroup_opened
  | .one (.one (.group _ true)) | .one (.one (.sign ..)) | .one (.more ..) | .more .. => rfl

theorem Expression.content_opened : ∀ e : Expression, e.opened.content = e.content
  | .one (.one (.group body false)) => by
    rw [opened, content]
    exact body.content_opened
  | .one (.one (.group _ true)) | .one (.one (.sign ..)) | .one (.more ..) | .more .. => rfl

/-- Only a starred group is looked for before the groups around an expression are left out. -/
theorem Expression.tree_eq_content : ∀ {e : Expression}, e.isStarredGroup = false →
    e.tree = e.content
  | .one (.one (.group _ false)), _ | .one (.one (.sign ..)), _ | .one (.more ..), _
  | .more .., _ => rfl
  | .one (.one (.group _ true)), h => absurd h (by simp [isStarredGroup])

/-- Where a starred group is not looked for, it is the only part of a concatenation. -/
theorem Expression.content_of_isStarredGroup : ∀ {e : Expression}, e.isStarredGroup = true →
    e.content = .concatenation [e.tree]
  | .one (.one (.group _ true)), _ => rfl
  | .one (.one (.group _ false)), h | .one (.one (.sign ..)), h | .one (.more ..), h
  | .more .., h => absurd h (by simp [isStarredGroup])

/-- An item alone is read as it is read among others, unless it is a character. -/
theorem Item.tree_group (body : Expression) (starred : Bool) :
    (Alternative.one (.group body starred)).tree = (Item.group body starred).tree := by
  cases starred <;> rfl

/-! ## Expressions as matched text -/

/-- Puts the marker of a starred item in front of a text. -/
def markerOnto (starred : Bool) (rest : Bracketed) : Bracketed :=
  if starred then .sign '^' rest else rest

mutual

def Expression.nodes : Expression → Bracketed
  | .one a => a.onto .nil
  | .more a others => a.onto (.sign '|' others.nodes)

def Alternative.onto : Alternative → (rest : Bracketed) → Bracketed
  | .one i, rest => i.onto rest
  | .more i others, rest => i.onto (others.onto rest)

def Item.onto : Item → (rest : Bracketed) → Bracketed
  | .sign c starred, rest => .sign c.val (markerOnto starred rest)
  | .group body starred, rest => .group body.nodes (markerOnto starred rest)

end

theorem spelling_markerOnto (starred : Bool) (rest : Bracketed) :
    (markerOnto starred rest).spelling = markerIf starred ++ rest.spelling := by
  cases starred <;> rfl

mutual

theorem Expression.spelling_nodes : ∀ e : Expression, e.nodes.spelling = e.spelling
  | .one a => by simp [Expression.nodes, Expression.spelling, a.spelling_onto]
  | .more a others => by
    simp [Expression.nodes, Expression.spelling, a.spelling_onto, others.spelling_nodes]

theorem Alternative.spelling_onto : ∀ (a : Alternative) (rest : Bracketed),
    (a.onto rest).spelling = a.spelling ++ rest.spelling
  | .one i, rest => by simp [Alternative.onto, Alternative.spelling, i.spelling_onto]
  | .more i others, rest => by
    simp [Alternative.onto, Alternative.spelling, i.spelling_onto, others.spelling_onto]

theorem Item.spelling_onto : ∀ (i : Item) (rest : Bracketed),
    (i.onto rest).spelling = i.spelling ++ rest.spelling
  | .sign c starred, rest => by simp [Item.onto, Item.spelling, spelling_markerOnto]
  | .group body starred, rest => by
    simp [Item.onto, Item.spelling, spelling_markerOnto, body.spelling_nodes]

end

theorem proper_markerOnto {starred : Bool} {rest : Bracketed} (h : rest.Proper) :
    (markerOnto starred rest).Proper := by
  cases starred with
  | false => exact h
  | true => exact ⟨by decide, by decide, h⟩

mutual

theorem Expression.proper_nodes : ∀ e : Expression, e.nodes.Proper
  | .one a => a.proper_onto trivial
  | .more a others => a.proper_onto ⟨by decide, by decide, others.proper_nodes⟩

theorem Alternative.proper_onto : ∀ (a : Alternative) {rest : Bracketed}, rest.Proper →
    (a.onto rest).Proper
  | .one i, _, h => i.proper_onto h
  | .more i others, _, h => i.proper_onto (others.proper_onto h)

theorem Item.proper_onto : ∀ (i : Item) {rest : Bracketed}, rest.Proper → (i.onto rest).Proper
  | .sign c _, _, h => ⟨c.property.1, c.property.2.1, proper_markerOnto h⟩
  | .group body _, _, h => ⟨body.proper_nodes, proper_markerOnto h⟩

end

/-! ## The grammar is unambiguous

An item ends where no marker follows, an alternative at a bar or at the end of the text. -/

/-- The text is empty or starts with a bar: no further item of an alternative follows. -/
def Bracketed.EndsAlternative : Bracketed → Prop
  | .nil => True
  | .sign c _ => c = '|'
  | .group .. => False

theorem endsAlternative_nil : Bracketed.nil.EndsAlternative := trivial

theorem endsAlternative_bar (rest : Bracketed) : (Bracketed.sign '|' rest).EndsAlternative := rfl

theorem Item.startsWithMarker_onto (i : Item) (rest : Bracketed) :
    (i.onto rest).startsWithMarker = false := by
  cases i with
  | group body starred => rfl
  | sign c starred =>
    have := c.property.2.2.2
    simp [onto, Bracketed.startsWithMarker, this]

theorem Item.not_endsAlternative_onto (i : Item) (rest : Bracketed) :
    ¬ (i.onto rest).EndsAlternative := by
  cases i with
  | group body starred => exact id
  | sign c starred => exact c.property.2.2.1

theorem Alternative.startsWithMarker_onto (a : Alternative) (rest : Bracketed) :
    (a.onto rest).startsWithMarker = false := by
  cases a <;> exact Item.startsWithMarker_onto ..

theorem Alternative.not_endsAlternative_onto (a : Alternative) (rest : Bracketed) :
    ¬ (a.onto rest).EndsAlternative := by
  cases a with
  | one i => exact i.not_endsAlternative_onto rest
  | more i others => exact i.not_endsAlternative_onto _

theorem Expression.startsWithMarker_nodes (e : Expression) : e.nodes.startsWithMarker = false := by
  cases e <;> exact Alternative.startsWithMarker_onto ..

theorem Bracketed.EndsAlternative.startsWithMarker {b : Bracketed} (h : b.EndsAlternative) :
    b.startsWithMarker = false := by
  cases b with
  | nil => rfl
  | sign c rest =>
    have : c = '|' := h
    subst this
    rfl
  | group inside rest => exact h.elim

theorem markerOnto_injective {s s' : Bool} {r r' : Bracketed} (hr : r.startsWithMarker = false)
    (hr' : r'.startsWithMarker = false) (h : markerOnto s r = markerOnto s' r') :
    s = s' ∧ r = r' := by
  cases s <;> cases s' <;> simp only [markerOnto] at h
  · exact ⟨rfl, h⟩
  · exact absurd hr (by rw [show r = .sign '^' r' from h]; simp [Bracketed.startsWithMarker])
  · exact absurd hr' (by rw [show r' = .sign '^' r from h.symm]; simp [Bracketed.startsWithMarker])
  · exact ⟨rfl, (Bracketed.sign.inj h).2⟩

mutual

theorem Expression.nodes_injective : ∀ {e e' : Expression}, e.nodes = e'.nodes → e = e'
  | .one a, .one a', h => by
    rw [(Alternative.onto_injective endsAlternative_nil endsAlternative_nil h).1]
  | .more a others, .more a' others', h => by
    obtain ⟨rfl, hrest⟩ := Alternative.onto_injective (endsAlternative_bar others.nodes)
      (endsAlternative_bar others'.nodes) h
    rw [Expression.nodes_injective (Bracketed.sign.inj hrest).2]
  | .one a, .more a' others', h =>
    absurd (Alternative.onto_injective endsAlternative_nil (endsAlternative_bar others'.nodes) h).2
      (by simp)
  | .more a others, .one a', h =>
    absurd (Alternative.onto_injective (endsAlternative_bar others.nodes) endsAlternative_nil h).2
      (by simp)

theorem Alternative.onto_injective : ∀ {a a' : Alternative} {rest rest' : Bracketed},
    rest.EndsAlternative → rest'.EndsAlternative → a.onto rest = a'.onto rest' →
    a = a' ∧ rest = rest'
  | .one i, .one i', rest, rest', hr, hr', h => by
    obtain ⟨rfl, hrest⟩ := Item.onto_injective hr.startsWithMarker hr'.startsWithMarker h
    exact ⟨rfl, hrest⟩
  | .more i others, .more i' others', rest, rest', hr, hr', h => by
    obtain ⟨rfl, hothers⟩ := Item.onto_injective (others.startsWithMarker_onto rest)
      (others'.startsWithMarker_onto rest') h
    obtain ⟨rfl, hrest⟩ := Alternative.onto_injective hr hr' hothers
    exact ⟨rfl, hrest⟩
  -- one alternative ends where the other goes on with an item
  | .one i, .more i' others', rest, rest', hr, hr', h => by
    obtain ⟨-, hrest⟩ := Item.onto_injective hr.startsWithMarker
      (others'.startsWithMarker_onto rest') h
    exact absurd (hrest ▸ hr) (others'.not_endsAlternative_onto rest')
  | .more i others, .one i', rest, rest', hr, hr', h => by
    obtain ⟨-, hrest⟩ := Item.onto_injective (others.startsWithMarker_onto rest)
      hr'.startsWithMarker h
    exact absurd (hrest ▸ hr') (others.not_endsAlternative_onto rest)

theorem Item.onto_injective : ∀ {i i' : Item} {rest rest' : Bracketed},
    rest.startsWithMarker = false → rest'.startsWithMarker = false →
    i.onto rest = i'.onto rest' → i = i' ∧ rest = rest'
  | .sign c s, .sign c' s', rest, rest', hr, hr', h => by
    obtain ⟨hc, hrest⟩ := Bracketed.sign.inj h
    -- a marker can only be the item's own, since the rest starts with none
    obtain ⟨rfl, rfl⟩ := markerOnto_injective hr hr' hrest
    exact ⟨by rw [Subtype.ext hc], rfl⟩
  | .group body s, .group body' s', rest, rest', hr, hr', h => by
    obtain ⟨hbody, hrest⟩ := Bracketed.group.inj h
    obtain ⟨rfl, rfl⟩ := markerOnto_injective hr hr' hrest
    exact ⟨by rw [Expression.nodes_injective hbody], rfl⟩
  | .sign .., .group .., _, _, _, _, h => absurd h (by simp [Item.onto])
  | .group .., .sign .., _, _, _, _, h => absurd h (by simp [Item.onto])

end

/-- The matched text of an expression is what its spelling is cut into. -/
theorem Expression.ofText_spelling (e : Expression) :
    Layout.ofText e.spelling = ⟨e.nodes, [], none⟩ := by
  rw [← e.spelling_nodes]
  exact Layout.ofText_spelling e.proper_nodes

/-- **No text is the spelling of two expressions.** -/
theorem Expression.eq_of_spelling_eq {e e' : Expression} (h : e.spelling = e'.spelling) :
    e = e' := by
  have hcut : (⟨e.nodes, [], none⟩ : Layout) = ⟨e'.nodes, [], none⟩ := by
    rw [← e.ofText_spelling, ← e'.ofText_spelling, h]
  exact Expression.nodes_injective (Layout.mk.inj hcut).1

end CaretAutomata.Pattern

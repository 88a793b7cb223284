import CaretAutomata.Proofs.Pattern.Grammar

/-!
# The outline of an expression

`Stretch.outline` takes a stretch apart from the outside in, by its brackets and bars; the grammar
of `Grammar.lean` builds expressions from the inside out. This file follows the outline through the
text of an expression and says what it finds there: for an alternative its items
(`Alternative.parts_onto`), for several alternatives their stretches
(`Expression.alternatives_pieces`) — and never a fault. It says nothing about text that is no
expression.
-/

namespace CaretAutomata.Pattern

/-! ## Markers behind opening brackets -/

theorem markerBehindOpen_cons_eq_none {c : Char} {rest : List Char} :
    markerBehindOpen (c :: rest) = none ↔
      ¬ (c = '(' ∧ rest.head? = some '^') ∧ markerBehindOpen rest = none := by
  rw [markerBehindOpen.eq_def]
  split
  · next heq =>
    obtain ⟨rfl, rfl⟩ := List.cons.inj heq
    simp
  · next hne heq =>
    obtain ⟨rfl, rfl⟩ := List.cons.inj heq
    rw [Option.map_eq_none_iff]
    refine ⟨fun h => ⟨?_, h⟩, And.right⟩
    intro h
    obtain ⟨rfl, hhead⟩ := h
    obtain ⟨tail, rfl⟩ := List.head?_eq_some_iff.mp hhead
    exact hne tail rfl rfl
  · next heq => exact absurd heq (by simp)

theorem markerBehindOpen_cons_of_ne {c : Char} {rest : List Char} (hc : c ≠ '(')
    (h : markerBehindOpen rest = none) : markerBehindOpen (c :: rest) = none :=
  markerBehindOpen_cons_eq_none.mpr ⟨fun hopen => hc hopen.1, h⟩

theorem markerBehindOpen_markerIf {starred : Bool} {tail : List Char}
    (h : markerBehindOpen tail = none) : markerBehindOpen (markerIf starred ++ tail) = none := by
  cases starred with
  | false => exact h
  | true => exact markerBehindOpen_cons_of_ne (by decide) h

theorem Bracketed.head?_spelling_ne {b : Bracketed} (h : b.startsWithMarker = false)
    {c : Char} (hc : c ≠ '^') (tail : List Char) :
    (b.spelling ++ c :: tail).head? ≠ some '^' := by
  cases b with
  | nil => simpa using hc
  | group inside rest => simp
  | sign d rest =>
    intro hd
    simp only [spelling_sign, List.cons_append, List.head?_cons, Option.some.injEq] at hd
    subst hd
    exact absurd h (by simp [startsWithMarker])

mutual

theorem Expression.markerBehindOpen_spelling : ∀ (e : Expression) {tail : List Char},
    markerBehindOpen tail = none → markerBehindOpen (e.spelling ++ tail) = none
  | .one a, _, h => a.markerBehindOpen_spelling h
  | .more a others, _, h => by
    rw [Expression.spelling, List.append_assoc]
    exact a.markerBehindOpen_spelling
      (markerBehindOpen_cons_of_ne (by decide) (others.markerBehindOpen_spelling h))

theorem Alternative.markerBehindOpen_spelling : ∀ (a : Alternative) {tail : List Char},
    markerBehindOpen tail = none → markerBehindOpen (a.spelling ++ tail) = none
  | .one i, _, h => i.markerBehindOpen_spelling h
  | .more i others, _, h => by
    rw [Alternative.spelling, List.append_assoc]
    exact i.markerBehindOpen_spelling (others.markerBehindOpen_spelling h)

theorem Item.markerBehindOpen_spelling : ∀ (i : Item) {tail : List Char},
    markerBehindOpen tail = none → markerBehindOpen (i.spelling ++ tail) = none
  | .sign c _, _, h => markerBehindOpen_cons_of_ne c.property.1 (markerBehindOpen_markerIf h)
  | .group body starred, tail, h => by
    have hclose : markerBehindOpen (')' :: (markerIf starred ++ tail)) = none :=
      markerBehindOpen_cons_of_ne (by decide) (markerBehindOpen_markerIf h)
    rw [Item.spelling, List.cons_append, List.append_assoc, List.cons_append,
      markerBehindOpen_cons_eq_none]
    refine ⟨fun hopen => ?_, body.markerBehindOpen_spelling hclose⟩
    -- right behind the bracket stands the body, and that starts with an item
    rw [← body.spelling_nodes] at hopen
    exact Bracketed.head?_spelling_ne body.startsWithMarker_nodes (by decide) _ hopen.2

end

/-! ## Taking an expression apart -/

open Stretch

@[simp]
theorem tailFault?_matched (start position : Nat) (b : Bracketed) :
    (matched start b).tailFault? position = none := rfl

theorem markerFault?_alternative (s : Stretch) (position : Nat) (a : Alternative) :
    s.markerFault? position (a.onto .nil) = none := by
  have h : markerBehindOpen (a.spelling ++ []) = none := a.markerBehindOpen_spelling rfl
  rw [markerFault?, a.spelling_onto, Bracketed.spelling_nil, h]
  rfl

/-- What is left to read of an item at `position`. -/
def Item.part (position : Nat) : Item → Part
  | .sign c false => .sign c
  | .sign c true => .repeatedSign c
  | .group body starred => .nested (matched position ((Item.group body starred).onto .nil))

def Alternative.parts (position : Nat) : Alternative → List Part
  | .one i => [i.part position]
  | .more i others => i.part position :: others.parts (position + i.spelling.length)

theorem parts_sign (s : Stretch) (position : Nat) (c : Ordinary) {rest : Bracketed}
    (h : rest.startsWithMarker = false) :
    s.parts position (.sign c.val rest) = prepend (.sign c) (s.parts (position + 1) rest) := by
  have hc := c.property.2.2.2
  rw [Stretch.parts]
  · exact hc
  · rintro r rfl
    exact absurd h (by simp [Bracketed.startsWithMarker])

theorem parts_repeatedSign (s : Stretch) (position : Nat) (c : Ordinary) (rest : Bracketed) :
    s.parts position (.sign c.val (.sign '^' rest)) =
      prepend (.repeatedSign c) (s.parts (position + 2) rest) := by
  have hc := c.property.2.2.2
  rw [Stretch.parts]
  exact hc

theorem parts_group (s : Stretch) (position : Nat) {inside rest : Bracketed}
    (h : rest.startsWithMarker = false) :
    s.parts position (.group inside rest) =
      s.prependGroup position (.group inside .nil)
        (s.parts (position + inside.width + 2) rest) := by
  rw [Stretch.parts]
  rintro r rfl
  exact absurd h (by simp [Bracketed.startsWithMarker])

theorem Item.parts_onto (s : Stretch) (position : Nat) (i : Item) {rest : Bracketed}
    (h : rest.startsWithMarker = false) :
    s.parts position (i.onto rest) =
      prepend (i.part position) (s.parts (position + i.spelling.length) rest) := by
  cases i with
  | sign c starred =>
    cases starred with
    | false => exact parts_sign s position c h
    | true => exact parts_repeatedSign s position c rest
  | group body starred =>
    -- a group is searched for markers together with its own, as the lone item it is
    have hmarker := markerFault?_alternative s position (.one (.group body starred))
    have hwidth : body.nodes.width = body.spelling.length := by
      rw [← Bracketed.length_spelling, body.spelling_nodes]
    cases starred with
    | false =>
      have hlength : (Item.group body false).spelling.length = body.nodes.width + 2 := by
        simp [Item.spelling, markerIf, hwidth]
      rw [hlength, show (Item.group body false).onto rest = .group body.nodes rest from rfl,
        parts_group s position h, prependGroup,
        show s.markerFault? position (.group body.nodes .nil) = none from hmarker]
      rfl
    | true =>
      have hlength : (Item.group body true).spelling.length = body.nodes.width + 3 := by
        simp [Item.spelling, markerIf, hwidth]
      rw [hlength,
        show (Item.group body true).onto rest = .group body.nodes (.sign '^' rest) from rfl,
        Stretch.parts, prependGroup,
        show s.markerFault? position (.group body.nodes (.sign '^' .nil)) = none from hmarker]
      rfl

/-- The text of an alternative is the sequence of its items, and nothing is wrong with it. -/
theorem Alternative.parts_onto (start : Nat) (b : Bracketed) : ∀ (a : Alternative) (position : Nat),
    (matched start b).parts position (a.onto .nil) = (a.parts position, none)
  | .one i, position => by
    rw [Alternative.onto, i.parts_onto _ _ rfl, Stretch.parts, tailFault?_matched]
    rfl
  | .more i others, position => by
    rw [Alternative.onto, i.parts_onto _ _ (others.startsWithMarker_onto .nil),
      others.parts_onto start b]
    rfl

/-! ## Bars -/

theorem hasBar_markerOnto (starred : Bool) (rest : Bracketed) :
    (markerOnto starred rest).hasBar = rest.hasBar := by
  cases starred <;> simp [markerOnto, Bracketed.hasBar]

theorem Item.hasBar_onto (i : Item) (rest : Bracketed) : (i.onto rest).hasBar = rest.hasBar := by
  cases i with
  | sign c starred => simp [Item.onto, Bracketed.hasBar, hasBar_markerOnto, c.property.2.2.1]
  | group body starred => exact hasBar_markerOnto starred rest

/-- The bars of an alternative stand in its groups. -/
theorem Alternative.hasBar_onto (a : Alternative) (rest : Bracketed) :
    (a.onto rest).hasBar = rest.hasBar := by
  cases a with
  | one i => exact i.hasBar_onto rest
  | more i others => rw [Alternative.onto, i.hasBar_onto, others.hasBar_onto]

theorem splitAtBars_sign {c : Char} (h : c ≠ '|') (rest : Bracketed) :
    (Bracketed.sign c rest).splitAtBars = (.sign c rest.splitAtBars.1, rest.splitAtBars.2) := by
  simp [Bracketed.splitAtBars, h]

theorem splitAtBars_markerOnto (starred : Bool) (rest : Bracketed) :
    (markerOnto starred rest).splitAtBars =
      (markerOnto starred rest.splitAtBars.1, rest.splitAtBars.2) := by
  cases starred with
  | false => rfl
  | true => exact splitAtBars_sign (by decide) rest

theorem Item.splitAtBars_onto (i : Item) (rest : Bracketed) :
    (i.onto rest).splitAtBars = (i.onto rest.splitAtBars.1, rest.splitAtBars.2) := by
  cases i with
  | sign c starred =>
    rw [Item.onto, splitAtBars_sign c.property.2.2.1, splitAtBars_markerOnto]
    rfl
  | group body starred => simp [Item.onto, Bracketed.splitAtBars, splitAtBars_markerOnto]

theorem Alternative.splitAtBars_onto (a : Alternative) (rest : Bracketed) :
    (a.onto rest).splitAtBars = (a.onto rest.splitAtBars.1, rest.splitAtBars.2) := by
  cases a with
  | one i => exact i.splitAtBars_onto rest
  | more i others =>
    rw [Alternative.onto, i.splitAtBars_onto, others.splitAtBars_onto]
    rfl

/-- The texts of the alternatives: that of the first one, and those of the others. -/
def Expression.pieces : Expression → Bracketed × List Bracketed
  | .one a => (a.onto .nil, [])
  | .more a others => (a.onto .nil, others.pieces.1 :: others.pieces.2)

theorem Expression.splitAtBars_nodes (e : Expression) : e.nodes.splitAtBars = e.pieces := by
  cases e with
  | one a => exact a.splitAtBars_onto .nil
  | more a others =>
    rw [Expression.nodes, a.splitAtBars_onto, Expression.pieces, ← others.splitAtBars_nodes]
    simp [Bracketed.splitAtBars]

def Expression.stretches (position : Nat) : Expression → List Stretch
  | .one a => [matched position (a.onto .nil)]
  | .more a others =>
    matched position (a.onto .nil) ::
      others.stretches (position + (a.onto .nil).width + 1)

theorem Alternative.isEmpty_onto (a : Alternative) (rest : Bracketed) :
    (a.onto rest).isEmpty = false := by
  cases a with
  | one i => cases i <;> rfl
  | more i others => cases i <;> rfl

theorem Expression.isEmpty_nodes (e : Expression) : e.nodes.isEmpty = false := by
  cases e <;> exact Alternative.isEmpty_onto ..

theorem alternativeFault?_onto (s : Stretch) (position : Nat) (a : Alternative) :
    s.alternativeFault? position (a.onto .nil) none = none := by
  rw [alternativeFault?, markerFault?_alternative, emptinessFault?, a.isEmpty_onto]
  rfl

theorem Expression.startsWithMarker_pieces (e : Expression) :
    e.pieces.1.startsWithMarker = false := by
  cases e <;> exact Alternative.startsWithMarker_onto ..

/-- The pieces of an expression are its alternatives, and nothing is wrong with them. -/
theorem Expression.alternatives_pieces (start : Nat) (b : Bracketed) :
    ∀ (e : Expression) (position : Nat),
      (matched start b).alternatives position e.pieces.1 e.pieces.2 = (e.stretches position, none)
  | .one a, position => by
    rw [Expression.pieces, Stretch.alternatives, tailFault?_matched, alternativeFault?_onto]
    rfl
  | .more a others, position => by
    have hbar : (matched start b).barFault? (position + (a.onto .nil).width) others.pieces.1
        = none := by
      rw [barFault?, others.startsWithMarker_pieces]
      rfl
    rw [Expression.pieces, Stretch.alternatives, hbar, alternativeFault?_onto,
      others.alternatives_pieces start b]
    rfl

/-! ## The outline, case by case -/

theorem outline_starredGroup (start : Nat) (body : Expression) :
    (matched start (Expression.one (.one (.group body true))).nodes).outline =
      .repetition (matched (start + 1) body.nodes) := by
  have hgroup : (matched start (Expression.one (.one (.group body true))).nodes).repeatedGroup? =
      some (.ok (matched (start + 1) body.nodes)) := by
    show some (if body.nodes.isEmpty then _ else if body.nodes.startsWithMarker then _ else _) = _
    rw [body.isEmpty_nodes, body.startsWithMarker_nodes]
    rfl
  rw [outline, hgroup]

/-- The first item of an expression, and what follows it: nothing only if it is all there is. -/
theorem Expression.exists_first_item : ∀ e : Expression, ∃ i rest,
    e.nodes = Item.onto i rest ∧ rest.startsWithMarker = false ∧
      (rest = .nil → e = .one (.one i))
  | .one (.one i) => ⟨i, .nil, rfl, rfl, fun _ => rfl⟩
  -- in the other cases an item or a bar follows, so the rest is not empty
  | .one (.more i others) =>
    ⟨i, others.onto .nil, rfl, others.startsWithMarker_onto .nil, fun h =>
      absurd (others.isEmpty_onto .nil) (by rw [h]; simp [Bracketed.isEmpty])⟩
  | .more (.one i) others => ⟨i, .sign '|' others.nodes, rfl, rfl, fun h => absurd h (by simp)⟩
  | .more (.more i items) others =>
    ⟨i, items.onto (.sign '|' others.nodes), rfl, items.startsWithMarker_onto _, fun h =>
      absurd (items.isEmpty_onto (.sign '|' others.nodes)) (by rw [h]; simp [Bracketed.isEmpty])⟩

/-- What looks like one group, with or without a marker, is one. -/
theorem Expression.group_of_nodes {e : Expression} {inside : Bracketed} (starred : Bool)
    (h : e.nodes = .group inside (markerOnto starred .nil)) :
    ∃ body, e = .one (.one (.group body starred)) ∧ body.nodes = inside := by
  obtain ⟨i, rest, hnodes, hrest, hlone⟩ := e.exists_first_item
  rw [h] at hnodes
  cases i with
  | sign c s => exact absurd hnodes (by simp [Item.onto])
  | group body s =>
    obtain ⟨hinside, hmarker⟩ := Bracketed.group.inj hnodes
    obtain ⟨rfl, hnil⟩ := markerOnto_injective rfl hrest hmarker
    exact ⟨body, hlone hnil.symm, hinside.symm⟩

theorem repeatedGroup?_eq_none {s : Stretch}
    (h : ∀ inside, s.layout.nodes ≠ .group inside (.sign '^' .nil)) : s.repeatedGroup? = none := by
  rw [repeatedGroup?]
  split
  · next inside heq => exact absurd (by rw [heq]) (h inside)
  · rfl

theorem openBrackets_of_ne {start : Nat} {b : Bracketed} (h : ∀ inside, b ≠ .group inside .nil) :
    openBrackets start b = .ok (matched start b) := by
  rw [openBrackets]
  exact h

/-- Brackets around the whole expression are taken off until none are left. -/
theorem Expression.openBrackets_nodes : ∀ (e : Expression) (start : Nat), ∃ start',
    openBrackets start e.nodes = .ok (matched start' e.opened.nodes)
  | .one (.one (.group body false)), start => by
    obtain ⟨start', h⟩ := body.openBrackets_nodes (start + 1)
    refine ⟨start', ?_⟩
    show (if body.nodes.startsWithMarker then _ else openBrackets (start + 1) body.nodes) = _
    rw [body.startsWithMarker_nodes]
    exact h
  | .one (.one (.group _ true)), start | .one (.one (.sign ..)), start => ⟨start, rfl⟩
  | .one (.more i others), start => by
    refine ⟨start, openBrackets_of_ne fun inside hgroup => ?_⟩
    obtain ⟨body, heq, -⟩ := Expression.group_of_nodes false hgroup
    exact absurd heq (by simp)
  | .more a others, start => by
    refine ⟨start, openBrackets_of_ne fun inside hgroup => ?_⟩
    obtain ⟨body, heq, -⟩ := Expression.group_of_nodes false hgroup
    exact absurd heq (by simp)

/-- Everything but a starred group is read by what its brackets enclose. -/
theorem outline_of_isStarredGroup_eq_false (start : Nat) {e : Expression}
    (h : e.isStarredGroup = false) : ∃ start',
      (matched start e.nodes).outline = (matched start' e.opened.nodes).inner := by
  have hgroup : (matched start e.nodes).repeatedGroup? = none := by
    refine repeatedGroup?_eq_none fun inside hinside => ?_
    obtain ⟨body, rfl, -⟩ := Expression.group_of_nodes true hinside
    exact absurd h (by simp [Expression.isStarredGroup])
  obtain ⟨start', hopen⟩ := e.openBrackets_nodes start
  have hmatched : (matched start e.nodes).layout.isComplete = true := rfl
  have hleft : openBrackets (matched start e.nodes).start (matched start e.nodes).layout.nodes =
      .ok (matched start' e.opened.nodes) := hopen
  have hempty : (matched start' e.opened.nodes).layout.nodes.isEmpty = false :=
    e.opened.isEmpty_nodes
  refine ⟨start', ?_⟩
  simp [outline, hgroup, hmatched, hleft, hempty]

theorem inner_one (start : Nat) (a : Alternative) :
    (matched start (Expression.one a).nodes).inner = .sequence (a.parts start) none := by
  have hbar : (matched start (Expression.one a).nodes).isChoice = false := by
    show ((a.onto .nil).hasBar || false) = false
    rw [a.hasBar_onto]
    rfl
  have hparts : (matched start (Expression.one a).nodes).parts
      (matched start (Expression.one a).nodes).start
      (matched start (Expression.one a).nodes).layout.nodes = (a.parts start, none) :=
    a.parts_onto start (Expression.one a).nodes start
  simp [Stretch.inner, hbar, hparts]

theorem inner_more (start : Nat) (a : Alternative) (others : Expression) :
    (matched start (Expression.more a others).nodes).inner =
      .choice ((Expression.more a others).stretches start) none := by
  have hbar : (matched start (Expression.more a others).nodes).isChoice = true := by
    show ((a.onto (.sign '|' others.nodes)).hasBar || false) = true
    rw [a.hasBar_onto]
    rfl
  have hsplit : (matched start (Expression.more a others).nodes).layout.nodes.splitAtBars =
      (Expression.more a others).pieces := (Expression.more a others).splitAtBars_nodes
  have hstretches := Expression.alternatives_pieces start (Expression.more a others).nodes
    (Expression.more a others) (matched start (Expression.more a others).nodes).start
  simp only [Stretch.inner, hbar, hsplit, hstretches, if_true]
  rfl

end CaretAutomata.Pattern

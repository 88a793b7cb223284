import CaretAutomata.Proofs.Pattern.Parsing

/-!
# What is read is in the grammar

`expression_of_read` is the converse of `read_matched`, and it is the half that keeps junk out: a
stretch that is read without a fault, at whatever depth and with whatever brackets, is the text of
an expression, and the tree is that expression's. Nothing is assumed of the brackets. A stretch
with stray or unclosed ones reaches `Stretch.inner` like any other, and what stops it there is that
every sequence and every choice ends by looking at what follows the matched text
(`isComplete_of_parts`, `isComplete_of_alternatives`).

Together with `Expression.eq_of_spelling_eq` this makes `parse` the inverse of the spelling
(`parse_ok_iff_spelling`).
-/

namespace CaretAutomata.Pattern

open Stretch

/-! ## Readings that succeed -/

theorem mapM_cons_eq_ok {α : Type} {f : α → Except Fault Extent} {x : α} {xs : List α}
    {ts : List Extent} : (x :: xs).mapM f = .ok ts ↔
      ∃ t us, f x = .ok t ∧ xs.mapM f = .ok us ∧ ts = t :: us := by
  rw [List.mapM_cons]
  cases hx : f x with
  | error fault => simp [bind, Except.bind]
  | ok t =>
    cases hxs : xs.mapM f with
    | error fault => simp [bind, Except.bind]
    | ok us => simp [bind, Except.bind, pure, Except.pure, eq_comm]

theorem mapM_raise_eq_ok {m : Except Fault (List Extent)} {fault : Option StructuralFault}
    {node : List Extent → Extent} {t : Extent} :
    (do let ts ← m; raise fault; return node ts) = Except.ok t ↔
      ∃ ts, m = .ok ts ∧ fault = none ∧ node ts = t := by
  cases m <;> cases fault <;> simp [raise, bind, Except.bind, pure, Except.pure]

theorem prepend_eq {part : Part} {behind : List Part × Option StructuralFault} {parts : List Part}
    (h : prepend part behind = (parts, none)) :
    ∃ others, parts = part :: others ∧ behind = (others, none) := by
  obtain ⟨others, fault⟩ := behind
  obtain ⟨rfl, rfl⟩ := Prod.mk.inj h
  exact ⟨others, rfl, rfl⟩

theorem prependGroup_eq {s : Stretch} {position : Nat} {group : Bracketed}
    {behind : List Part × Option StructuralFault} {parts : List Part}
    (h : s.prependGroup position group behind = (parts, none)) :
    ∃ others, parts = .nested (matched position group) :: others ∧ behind = (others, none) := by
  rw [prependGroup] at h
  split at h
  · exact absurd (Prod.mk.inj h).2 (by simp)
  · exact prepend_eq h

/-! ## Stray and unclosed brackets do not get through -/

theorem isComplete_of_tailFault? {s : Stretch} {position : Nat}
    (h : s.tailFault? position = none) : s.layout.strays = [] ∧ s.layout.unclosed = none := by
  rw [tailFault?] at h
  split at h
  · exact absurd h (by simp)
  · split at h <;> exact absurd h (by simp)
  · next hs hu => exact ⟨hs, hu⟩

theorem isComplete_of_parts {s : Stretch} {position : Nat} {b : Bracketed} {parts : List Part}
    (h : s.parts position b = (parts, none)) :
    s.layout.strays = [] ∧ s.layout.unclosed = none := by
  -- whatever the parts are, the scan ends by looking at the tail
  fun_induction Stretch.parts s position b generalizing parts with
  | case1 position => exact isComplete_of_tailFault? (Prod.mk.inj h).2
  | case2 position rest => exact absurd (Prod.mk.inj h).2 (by simp)
  | case3 position c rest _ ih | case4 position c rest _ _ ih =>
    obtain ⟨others, -, hbehind⟩ := prepend_eq h
    exact ih hbehind
  | case5 position inside rest ih | case6 position inside rest _ ih =>
    obtain ⟨others, -, hbehind⟩ := prependGroup_eq h
    exact ih hbehind

theorem alternativeFault?_eq_none {s : Stretch} {position : Nat} {text : Bracketed}
    {behind : Option StructuralFault} (h : s.alternativeFault? position text behind = none) :
    behind = none ∧ text ≠ .nil := by
  simp only [alternativeFault?, Option.orElse_eq_orElse, Option.orElse_eq_or,
    Option.or_eq_none_iff] at h
  obtain ⟨-, hbehind, hempty⟩ := h
  refine ⟨hbehind, ?_⟩
  rintro rfl
  exact absurd hempty (by simp [emptinessFault?, Bracketed.isEmpty])

theorem isComplete_of_alternatives {s : Stretch} : ∀ {others : List Bracketed} {position : Nat}
    {first : Bracketed} {stretches : List Stretch},
    s.alternatives position first others = (stretches, none) →
    s.layout.strays = [] ∧ s.layout.unclosed = none
  | [], position, first, stretches, h => by
    rw [Stretch.alternatives] at h
    split at h
    · exact absurd (Prod.mk.inj h).2 (by simp)
    · next hfault => exact isComplete_of_tailFault? (alternativeFault?_eq_none hfault).1
  | second :: others, position, first, stretches, h => by
    rw [Stretch.alternatives] at h
    split at h
    · exact absurd (Prod.mk.inj h).2 (by simp)
    · exact isComplete_of_alternatives (Prod.ext rfl (Prod.mk.inj h).2)

theorem isComplete_of_inner {s : Stretch} {rd : Stretch → Except Fault Extent} {t : Extent}
    (h : s.inner.readWith rd = .ok t) : s.layout.strays = [] ∧ s.layout.unclosed = none := by
  rw [Stretch.inner] at h
  split at h
  · obtain ⟨ts, -, hfault, -⟩ := mapM_raise_eq_ok.mp h
    exact isComplete_of_alternatives (Prod.ext rfl hfault)
  · obtain ⟨ts, -, hfault, -⟩ := mapM_raise_eq_ok.mp h
    exact isComplete_of_parts (Prod.ext rfl hfault)

/-! ## Sequences

Each part that is read is an item; a group among them is read as an expression of its own, and its
text says that it is this group and nothing else. -/

/-- Puts an item in front of the items of an alternative, or of nothing. -/
theorem exists_alternative_onto (i : Item) {rest : Bracketed} {ts : List Extent}
    (h : (rest = .nil ∧ ts = []) ∨ ∃ a : Alternative, a.onto .nil = rest ∧ a.trees = ts) :
    ∃ a : Alternative, a.onto .nil = i.onto rest ∧ a.trees = i.tree :: ts := by
  rcases h with ⟨rfl, rfl⟩ | ⟨a, rfl, rfl⟩
  · exact ⟨.one i, rfl, rfl⟩
  · exact ⟨.more i a, rfl, rfl⟩

theorem hasBar_sign {c : Char} {rest : Bracketed} (h : (Bracketed.sign c rest).hasBar = false) :
    c ≠ '|' ∧ rest.hasBar = false := by
  simpa [Bracketed.hasBar] using h

section Sound

variable {rd : Stretch → Except Fault Extent}
  (hrd : ∀ (s : Stretch) (t : Extent), s.layout.nodes.Proper → rd s = .ok t →
    ∃ e : Expression, s.layout = ⟨e.nodes, [], none⟩ ∧ e.tree = t)

include hrd

theorem group_of_read {start : Nat} {inside : Bracketed} {t : Extent} (starred : Bool)
    (hproper : inside.Proper)
    (h : rd (matched start (.group inside (markerOnto starred .nil))) = .ok t) :
    ∃ body : Expression, body.nodes = inside ∧ (Item.group body starred).tree = t := by
  have hgroup : (Bracketed.group inside (markerOnto starred .nil)).Proper :=
    ⟨hproper, proper_markerOnto trivial⟩
  obtain ⟨e, hlayout, htree⟩ := hrd (matched start _) t hgroup h
  obtain ⟨body, rfl, hbody⟩ := Expression.group_of_nodes starred (Layout.mk.inj hlayout).1.symm
  exact ⟨body, hbody, by rw [← htree, ← Item.tree_group]; rfl⟩

theorem alternative_of_parts {s : Stretch} {position : Nat} {b : Bracketed} {parts : List Part}
    {ts : List Extent} (hproper : b.Proper) (hbar : b.hasBar = false)
    (h : s.parts position b = (parts, none))
    (hparts : parts.mapM (Part.readWith rd) = .ok ts) :
    (b = .nil ∧ ts = []) ∨ ∃ a : Alternative, a.onto .nil = b ∧ a.trees = ts := by
  -- the induction follows the scan; with no bar left, every sign that it keeps is ordinary
  fun_induction Stretch.parts s position b generalizing parts ts with
  | case1 position =>
    obtain ⟨rfl, -⟩ := Prod.mk.inj h
    exact .inl ⟨rfl, (Except.ok.inj hparts).symm⟩
  | case2 position rest => exact absurd (Prod.mk.inj h).2 (by simp)
  | case3 position c rest hc ih =>
    obtain ⟨others, rfl, hbehind⟩ := prepend_eq h
    obtain ⟨t, us, ht, hus, rfl⟩ := mapM_cons_eq_ok.mp hparts
    obtain ⟨hne, hbar⟩ := hasBar_sign hbar
    have hrest := ih hproper.2.2.2.2 (hasBar_sign hbar).2 hbehind hus
    have htree : (Item.sign ⟨c, hproper.1, hproper.2.1, hne, hc⟩ true).tree = t :=
      Except.ok.inj ht
    rw [← htree]
    exact .inr (exists_alternative_onto (.sign ⟨c, _⟩ true) hrest)
  | case4 position c rest hc _ ih =>
    obtain ⟨others, rfl, hbehind⟩ := prepend_eq h
    obtain ⟨t, us, ht, hus, rfl⟩ := mapM_cons_eq_ok.mp hparts
    obtain ⟨hne, hbar⟩ := hasBar_sign hbar
    have hrest := ih hproper.2.2 hbar hbehind hus
    have htree : (Item.sign ⟨c, hproper.1, hproper.2.1, hne, hc⟩ false).tree = t :=
      Except.ok.inj ht
    rw [← htree]
    exact .inr (exists_alternative_onto (.sign ⟨c, _⟩ false) hrest)
  | case5 position inside rest ih =>
    obtain ⟨others, rfl, hbehind⟩ := prependGroup_eq h
    obtain ⟨t, us, ht, hus, rfl⟩ := mapM_cons_eq_ok.mp hparts
    have hrest := ih hproper.2.2.2 (hasBar_sign hbar).2 hbehind hus
    obtain ⟨body, rfl, rfl⟩ := group_of_read hrd true hproper.1 ht
    exact .inr (exists_alternative_onto (.group body true) hrest)
  | case6 position inside rest _ ih =>
    obtain ⟨others, rfl, hbehind⟩ := prependGroup_eq h
    obtain ⟨t, us, ht, hus, rfl⟩ := mapM_cons_eq_ok.mp hparts
    have hrest := ih hproper.2 hbar hbehind hus
    obtain ⟨body, rfl, rfl⟩ := group_of_read hrd false hproper.1 ht
    exact .inr (exists_alternative_onto (.group body false) hrest)

end Sound

/-! ## Choices -/

def joinAtBars (first : Bracketed) : List Bracketed → Bracketed
  | [] => first
  | second :: others => first.append (.sign '|' (joinAtBars second others))

theorem joinAtBars_splitAtBars (b : Bracketed) : joinAtBars b.splitAtBars.1 b.splitAtBars.2 = b := by
  induction b with
  | nil => rfl
  | sign c rest ih =>
    by_cases hc : c = '|'
    · subst hc
      show Bracketed.sign '|' (joinAtBars rest.splitAtBars.1 rest.splitAtBars.2) = _
      rw [ih]
    · rw [splitAtBars_sign hc]
      cases hothers : rest.splitAtBars.2 <;> rw [hothers] at ih
      · exact congrArg (Bracketed.sign c) ih
      · exact congrArg (Bracketed.sign c) ih
  | group inside rest _ ih =>
    -- the bars inside of a group are not cut at
    show joinAtBars (.group inside rest.splitAtBars.1) rest.splitAtBars.2 = _
    cases hothers : rest.splitAtBars.2 <;> rw [hothers] at ih
    · exact congrArg (Bracketed.group inside) ih
    · exact congrArg (Bracketed.group inside) ih

/-- A text that is cut into the pieces of an expression is its text. -/
theorem Expression.nodes_of_pieces {e : Expression} {b : Bracketed} (h : e.pieces = b.splitAtBars) :
    e.nodes = b := by
  rw [← joinAtBars_splitAtBars b, ← h, ← e.splitAtBars_nodes, joinAtBars_splitAtBars]

/-- Between the bars stands matched text without bars. -/
structure Piece (b : Bracketed) : Prop where
  proper : b.Proper
  hasBar : b.hasBar = false

theorem Piece.sign {c : Char} {b : Bracketed} (ho : c ≠ '(') (hc : c ≠ ')') (hbar : c ≠ '|')
    (h : Piece b) : Piece (.sign c b) :=
  ⟨⟨ho, hc, h.proper⟩, by simp [Bracketed.hasBar, hbar, h.hasBar]⟩

theorem piece_splitAtBars {b : Bracketed} (h : b.Proper) :
    Piece b.splitAtBars.1 ∧ ∀ other ∈ b.splitAtBars.2, Piece other := by
  induction b with
  | nil => exact ⟨⟨trivial, rfl⟩, by simp [Bracketed.splitAtBars]⟩
  | sign c rest ih =>
    obtain ⟨ho, hc, hrest⟩ := h
    obtain ⟨hfirst, hothers⟩ := ih hrest
    by_cases hbar : c = '|'
    · subst hbar
      refine ⟨⟨trivial, rfl⟩, fun other hother => ?_⟩
      have hmem : other ∈ rest.splitAtBars.1 :: rest.splitAtBars.2 := hother
      rcases List.mem_cons.mp hmem with rfl | hmem
      · exact hfirst
      · exact hothers other hmem
    · rw [splitAtBars_sign hbar]
      exact ⟨hfirst.sign ho hc hbar, hothers⟩
  | group inside rest _ ih =>
    obtain ⟨hfirst, hothers⟩ := ih h.2
    exact ⟨⟨⟨h.1, hfirst.proper⟩, hfirst.hasBar⟩, hothers⟩

theorem Expression.one_of_hasBar : ∀ {e : Expression}, e.nodes.hasBar = false → ∃ a, e = .one a
  | .one a, _ => ⟨a, rfl⟩
  | .more a others, h => by
    rw [Expression.nodes, a.hasBar_onto] at h
    exact absurd h (by simp [Bracketed.hasBar])

section Sound

variable {rd : Stretch → Except Fault Extent}
  (hrd : ∀ (s : Stretch) (t : Extent), s.layout.nodes.Proper → rd s = .ok t →
    ∃ e : Expression, s.layout = ⟨e.nodes, [], none⟩ ∧ e.tree = t)

include hrd

theorem alternative_of_read {start : Nat} {b : Bracketed} {t : Extent} (hpiece : Piece b)
    (h : rd (matched start b) = .ok t) : ∃ a : Alternative, a.onto .nil = b ∧ a.tree = t := by
  obtain ⟨e, hlayout, htree⟩ := hrd (matched start b) t hpiece.proper h
  have hnodes : b = e.nodes := (Layout.mk.inj hlayout).1
  obtain ⟨a, rfl⟩ := Expression.one_of_hasBar (hnodes ▸ hpiece.hasBar)
  exact ⟨a, hnodes.symm, htree⟩

theorem expression_of_alternatives {s : Stretch} : ∀ {others : List Bracketed} {position : Nat}
    {first : Bracketed} {stretches : List Stretch} {ts : List Extent},
    Piece first → (∀ other ∈ others, Piece other) →
    s.alternatives position first others = (stretches, none) → stretches.mapM rd = .ok ts →
    ∃ e : Expression, e.pieces = (first, others) ∧ e.trees = ts
  | [], position, first, stretches, ts, hfirst, _, h, hread => by
    rw [Stretch.alternatives] at h
    split at h
    · exact absurd (Prod.mk.inj h).2 (by simp)
    · obtain ⟨rfl, -⟩ := Prod.mk.inj h
      obtain ⟨t, us, ht, hus, rfl⟩ := mapM_cons_eq_ok.mp hread
      obtain ⟨a, rfl, rfl⟩ := alternative_of_read hrd hfirst ht
      exact ⟨.one a, rfl, by rw [← Except.ok.inj hus]; rfl⟩
  | second :: others, position, first, stretches, ts, hfirst, hothers, h, hread => by
    rw [Stretch.alternatives] at h
    split at h
    · exact absurd (Prod.mk.inj h).2 (by simp)
    · obtain ⟨rfl, hfault⟩ := Prod.mk.inj h
      obtain ⟨t, us, ht, hus, rfl⟩ := mapM_cons_eq_ok.mp hread
      obtain ⟨a, rfl, rfl⟩ := alternative_of_read hrd hfirst ht
      obtain ⟨e, hpieces, rfl⟩ := expression_of_alternatives (hothers second (.head _))
        (fun other hother => hothers other (.tail _ hother)) (Prod.ext rfl hfault) hus
      exact ⟨.more a e, by rw [Expression.pieces, hpieces], rfl⟩

/-- What is read as a sequence or a choice is an expression. -/
theorem expression_of_inner {s : Stretch} {t : Extent} (hproper : s.layout.nodes.Proper)
    (hne : s.layout.nodes ≠ .nil) (hgroup : ∀ inside, s.layout.nodes ≠ .group inside .nil)
    (h : s.inner.readWith rd = .ok t) : ∃ e : Expression, e.nodes = s.layout.nodes ∧ e.content = t := by
  obtain ⟨hstrays, hunclosed⟩ := isComplete_of_inner h
  rw [Stretch.inner] at h
  split at h
  · next hchoice =>
    obtain ⟨ts, hread, hfault, rfl⟩ := mapM_raise_eq_ok.mp h
    obtain ⟨hfirst, hothers⟩ := piece_splitAtBars hproper
    obtain ⟨e, hpieces, rfl⟩ := expression_of_alternatives hrd hfirst hothers
      (Prod.ext rfl hfault) hread
    have hnodes := Expression.nodes_of_pieces hpieces
    cases e with
    | more a others => exact ⟨.more a others, hnodes, rfl⟩
    | one a =>
      -- A choice has a bar outside its groups, and nothing behind the matched text.
      have hbar : (s.layout.nodes.hasBar || barAtLevelZero 0 s.layout.tail) = true := hchoice
      rw [← hnodes, Expression.nodes, a.hasBar_onto, Layout.tail, hstrays, hunclosed] at hbar
      exact absurd hbar (by decide)
  · next hchoice =>
    obtain ⟨ts, hread, hfault, rfl⟩ := mapM_raise_eq_ok.mp h
    have hbar : s.layout.nodes.hasBar = false := by
      have hchoice : (s.layout.nodes.hasBar || barAtLevelZero 0 s.layout.tail) ≠ true := hchoice
      cases hb : s.layout.nodes.hasBar with
      | false => rfl
      | true => exact absurd (by rw [hb]; rfl) hchoice
    rcases alternative_of_parts hrd hproper hbar (Prod.ext rfl hfault) hread with
      ⟨hnil, -⟩ | ⟨a, ha, rfl⟩
    · exact absurd hnil hne
    · refine ⟨.one a, ha, Expression.content_one ?_⟩
      cases a with
      | more i others => rfl
      | one i =>
        cases i with
        | sign c starred => rfl
        | group body starred =>
          cases starred with
          | true => rfl
          | false => exact absurd ha.symm (hgroup body.nodes)

end Sound

/-! ## Brackets around everything -/

/-- What is left when the brackets around a text are gone, and how to put them back: `opened` is
the stretch of a text that no brackets enclose, and an expression for that text gives one with the
same content for the whole. -/
structure OpensTo (b : Bracketed) (opened : Stretch) : Prop where
  layout : opened.layout = ⟨opened.layout.nodes, [], none⟩
  proper : b.Proper → opened.layout.nodes.Proper
  not_group : ∀ inside, opened.layout.nodes ≠ .group inside .nil
  restore : ∀ e : Expression, e.nodes = opened.layout.nodes →
    ∃ e' : Expression, e'.nodes = b ∧ e'.content = e.content

theorem opensTo_of_openBrackets {b : Bracketed} {start : Nat} {opened : Stretch}
    (h : openBrackets start b = .ok opened) : OpensTo b opened := by
  fun_induction openBrackets start b with
  | case1 start inside hmarker => exact absurd h (by simp)
  | case2 start inside hmarker ih =>
    have hinside := ih h
    refine ⟨hinside.layout, fun hb => hinside.proper hb.1, hinside.not_group, fun e he => ?_⟩
    obtain ⟨e', rfl, hcontent⟩ := hinside.restore e he
    exact ⟨.one (.one (.group e' false)), rfl, hcontent⟩
  | case3 start b hne =>
    obtain rfl := Except.ok.inj h
    exact ⟨rfl, id, hne, fun e he => ⟨e, he, rfl⟩⟩

/-- What is made of a repeated group: it may be empty, or start with a marker, or be read on. -/
theorem repeatedGroup?_cases {s : Stretch} {result : Except StructuralFault Stretch}
    (h : s.repeatedGroup? = some result) :
    ∃ inside, s.layout = ⟨.group inside (.sign '^' .nil), [], none⟩ ∧
      ((inside = .nil ∧ result = .error (s.fault .emptyRepetition s.span)) ∨
        (inside.startsWithMarker = true ∧
          result = .error (s.fault .markerAfterOpen (.single (s.start + 1)))) ∨
        (inside ≠ .nil ∧ inside.startsWithMarker = false ∧
          result = .ok (matched (s.start + 1) inside))) := by
  rw [repeatedGroup?] at h
  split at h
  · next inside hlayout =>
    obtain rfl := Option.some.inj h
    refine ⟨inside, hlayout, ?_⟩
    split
    · next hempty => exact .inl ⟨Bracketed.isEmpty_iff.mp hempty, rfl⟩
    · next hempty =>
      split
      · next hmarker => exact .inr (.inl ⟨hmarker, rfl⟩)
      · next hmarker =>
        have hne : inside ≠ .nil := fun hnil => hempty (Bracketed.isEmpty_iff.mpr hnil)
        exact .inr (.inr ⟨hne, Bool.not_eq_true _ ▸ hmarker, rfl⟩)
  · exact absurd h (by simp)

theorem repeatedGroup_eq {s body : Stretch} (h : s.repeatedGroup? = some (.ok body)) :
    ∃ inside, s.layout = ⟨.group inside (.sign '^' .nil), [], none⟩ ∧
      body = matched (s.start + 1) inside := by
  obtain ⟨inside, hlayout, ⟨-, h⟩ | ⟨-, h⟩ | ⟨-, -, h⟩⟩ := repeatedGroup?_cases h
  · exact absurd h (by simp)
  · exact absurd h (by simp)
  · exact ⟨inside, hlayout, Except.ok.inj h⟩

theorem layout_eq_of_isComplete {l : Layout} (h : l.isComplete = true) :
    l = ⟨l.nodes, [], none⟩ := by
  obtain ⟨nodes, strays, unclosed⟩ := l
  simp only [Layout.isComplete, Bool.and_eq_true, List.isEmpty_iff, Option.isNone_iff_eq_none] at h
  rw [h.1, h.2]

theorem isStarredGroup_of_repeatedGroup? {s : Stretch} {e : Expression}
    (hlayout : s.layout = ⟨e.nodes, [], none⟩) (h : s.repeatedGroup? = none) :
    e.isStarredGroup = false := by
  match e with
  | .one (.one (.group body true)) =>
    rw [repeatedGroup?, hlayout] at h
    exact absurd h (by simp [Expression.nodes, Alternative.onto, Item.onto, markerOnto])
  | .one (.one (.group _ false)) | .one (.one (.sign ..)) | .one (.more ..) | .more .. => rfl

/-! ## What is read is in the grammar -/

section Sound

variable {rd : Stretch → Except Fault Extent}
  (hrd : ∀ (s : Stretch) (t : Extent), s.layout.nodes.Proper → rd s = .ok t →
    ∃ e : Expression, s.layout = ⟨e.nodes, [], none⟩ ∧ e.tree = t)

include hrd

theorem expression_of_repetition {s : Stretch} {start : Nat} {inside : Bracketed} {t : Extent}
    (hlayout : s.layout = ⟨.group inside (.sign '^' .nil), [], none⟩) (hproper : inside.Proper)
    (h : (Outline.repetition (matched start inside)).readWith rd = .ok t) :
    ∃ e : Expression, s.layout = ⟨e.nodes, [], none⟩ ∧ e.tree = t := by
  rw [Outline.readWith] at h
  cases hread : rd (matched start inside) with
  | error fault =>
    rw [hread] at h
    exact absurd h (by simp [bind, Except.bind])
  | ok t' =>
    rw [hread] at h
    obtain ⟨e, hnodes, rfl⟩ := hrd (matched start inside) t' hproper hread
    rw [hlayout, show inside = e.nodes from (Layout.mk.inj hnodes).1]
    exact ⟨.one (.one (.group e true)), rfl, Except.ok.inj h⟩

theorem expression_of_opened {s opened : Stretch} {t : Extent} (hproper : s.layout.nodes.Proper)
    (hcomplete : s.layout.isComplete = true) (hgroup : s.repeatedGroup? = none)
    (hopens : OpensTo s.layout.nodes opened) (hempty : ¬ opened.layout.nodes.isEmpty = true)
    (h : opened.inner.readWith rd = .ok t) :
    ∃ e : Expression, s.layout = ⟨e.nodes, [], none⟩ ∧ e.tree = t := by
  have hne : opened.layout.nodes ≠ .nil := by
    intro hnil
    rw [hnil] at hempty
    exact hempty rfl
  obtain ⟨e₀, he₀, rfl⟩ := expression_of_inner hrd (hopens.proper hproper) hne hopens.not_group h
  -- the brackets that were taken off are put back around the expression
  obtain ⟨e, he, hcontent⟩ := hopens.restore e₀ he₀
  have hlayout : s.layout = ⟨e.nodes, [], none⟩ := by
    rw [he]
    exact layout_eq_of_isComplete hcomplete
  have hplain := isStarredGroup_of_repeatedGroup? hlayout hgroup
  exact ⟨e, hlayout, by rw [Expression.tree_eq_content hplain, hcontent]⟩

theorem expression_of_outline {s : Stretch} {t : Extent} (hproper : s.layout.nodes.Proper)
    (h : s.outline.readWith rd = .ok t) :
    ∃ e : Expression, s.layout = ⟨e.nodes, [], none⟩ ∧ e.tree = t := by
  rw [outline] at h
  split at h
  · exact absurd h (by simp [Outline.readWith])
  · next body hgroup =>
    obtain ⟨inside, hlayout, rfl⟩ := repeatedGroup_eq hgroup
    rw [hlayout] at hproper
    exact expression_of_repetition hrd hlayout hproper.1 h
  · next hgroup =>
    split at h
    · next hcomplete =>
      split at h
      · exact absurd h (by simp [Outline.readWith])
      · next opened hopen =>
        split at h
        · exact absurd h (by simp [Outline.readWith])
        · next hempty =>
          have hopens := opensTo_of_openBrackets hopen
          exact expression_of_opened hrd hproper hcomplete hgroup hopens hempty h
    · next hcomplete =>
      -- brackets that do not match are read like any others, but never without a fault
      obtain ⟨hstrays, hunclosed⟩ := isComplete_of_inner h
      exact absurd (by simp [Layout.isComplete, hstrays, hunclosed]) hcomplete

end Sound

/-- **What is read without a fault is the text of an expression, and comes out as its tree.** -/
theorem expression_of_read (limit : Nat) : ∀ (budget : Nat) (s : Stretch) (t : Extent),
    s.layout.nodes.Proper → read limit budget s = .ok t →
    ∃ e : Expression, s.layout = ⟨e.nodes, [], none⟩ ∧ e.tree = t := by
  intro budget
  induction budget with
  | zero =>
    intro s t _ h
    exact absurd h (by simp [read])
  | succ budget ih =>
    intro s t hproper h
    rw [read_succ] at h
    exact expression_of_outline ih hproper h

/-- Every tree that comes out of `parse`, whatever the limits, is that of an expression. -/
theorem expression_of_parse {limits : Limits} {pattern : String} {t : Extent}
    (h : parse limits pattern = .ok t) :
    ∃ e : Expression, e.spelling = collapse pattern.toList ∧ e.tree = t := by
  rw [parse, parseText] at h
  split at h
  · exact absurd h (by simp)
  · split at h
    · exact absurd h (by simp)
    · have hproper := (Layout.proper_ofText (collapse pattern.toList)).1
      obtain ⟨e, hlayout, htree⟩ := expression_of_read _ _ (.ofText pattern.toList) t hproper h
      have hcut : Layout.ofText (collapse pattern.toList) = ⟨e.nodes, [], none⟩ := hlayout
      refine ⟨e, ?_, htree⟩
      rw [← Layout.spelling_ofText (collapse pattern.toList), hcut]
      simp [Layout.spelling, Layout.tail, Layout.spellStrays, Layout.spellUnclosed,
        e.spelling_nodes]

theorem parse_of_spelling {limits : Limits} {pattern : String} {e : Expression}
    (hlength : pattern.length ≤ limits.maxLength)
    (hdepth : (collapse pattern.toList).length ≤ limits.maxDepth)
    (h : e.spelling = collapse pattern.toList) : parse limits pattern = .ok e.tree := by
  have hne : pattern.toList.isEmpty = false := by
    cases hp : pattern.toList with
    | nil =>
      have := e.length_spelling_pos
      rw [h, hp] at this
      exact absurd this (by decide)
    | cons c rest => rfl
  have hcut : Stretch.ofText pattern.toList = matched 0 e.nodes := by
    rw [Stretch.ofText, ← h, e.ofText_spelling]
    rfl
  rw [parse, parseText, String.length_toList, if_neg (by omega), hne, hcut]
  exact read_matched _ _ e 0 (h ▸ hdepth)

/-- **`parse` inverts the spelling.** A pattern within the limits is read exactly if, its runs of
markers collapsed, it is the spelling of an expression; no text is the spelling of two expressions;
and the tree of a pattern is the tree of its expression. -/
theorem parse_ok_iff_spelling {limits : Limits} {pattern : String}
    (hlength : pattern.length ≤ limits.maxLength)
    (hdepth : (collapse pattern.toList).length ≤ limits.maxDepth) :
    ((∃ t, parse limits pattern = .ok t) ↔
      ∃ e : Expression, e.spelling = collapse pattern.toList) ∧
    (∀ e e' : Expression, e.spelling = e'.spelling → e = e') ∧
    ∀ e : Expression, e.spelling = collapse pattern.toList →
      parse limits pattern = .ok e.tree := by
  refine ⟨⟨?_, ?_⟩, fun _ _ => Expression.eq_of_spelling_eq,
    fun e => parse_of_spelling hlength hdepth⟩
  · intro h
    obtain ⟨t, ht⟩ := h
    obtain ⟨e, he, -⟩ := expression_of_parse ht
    exact ⟨e, he⟩
  · intro h
    obtain ⟨e, he⟩ := h
    exact ⟨e.tree, parse_of_spelling hlength hdepth he⟩

/-- A group around a starred group, and a run of markers. -/
theorem parse_starred_group_in_group :
    "((a|b)^^)c^".length ≤ ({} : Limits).maxLength ∧
    (collapse "((a|b)^^)c^".toList).length ≤ ({} : Limits).maxDepth ∧
    parse {} "((a|b)^^)c^" = .ok (.concatenation
      [.concatenation [.repetition (.union [.literal ['a'], .literal ['b']])],
        .repetition (.leaf 'c')]) := by
  let choice : Expression :=
    .more (.one (.sign ⟨'a', by decide⟩ false)) (.one (.one (.sign ⟨'b', by decide⟩ false)))
  let e : Expression := .one (.more (.group (.one (.one (.group choice true))) false)
    (.one (.sign ⟨'c', by decide⟩ true)))
  have hlength : "((a|b)^^)c^".length ≤ ({} : Limits).maxLength := by decide
  have hdepth : (collapse "((a|b)^^)c^".toList).length ≤ ({} : Limits).maxDepth := by decide
  exact ⟨hlength, hdepth, (parse_ok_iff_spelling hlength hdepth).2.2 e (by decide)⟩

end CaretAutomata.Pattern

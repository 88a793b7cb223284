import CaretAutomata.Proofs.Automaton.Wiring
import CaretAutomata.Proofs.Pattern.Depth

/-!
# Repetitions that stand alone

A concatenation of nothing but a repeated group says no more than the repetition itself. Where it
stands matters all the same: among the parts of another concatenation it is written with brackets
of its own, `a((b)^)`, and these come back when the text is read; as a whole tree, as an alternative
or as a repeated body it is written like the repetition, and what is read is the repetition.
`Extent.unwrap` replaces it there, and only there. Spelling, leaves and wiring stay what they were
(`spelling_unwrapAt`, `wire_unwrapAt`), no tree gets deeper, and `unwrap_eq_self_iff` says which
trees stay as they are.
-/

namespace CaretAutomata.Extent

/-- Where an extent stands in a tree. -/
inductive Place where
  /-- As the whole tree, as an alternative of a union or as what a repetition repeats. -/
  | alone
  /-- Among the parts of a concatenation. -/
  | part
  deriving DecidableEq, Repr

/-- The repetition of an extent; the repetition of a single character is none. -/
def isRepeatedGroup : Extent → Bool
  | repetition body => !body.isLeaf
  | _ => false

/-- The concatenation of some parts, unless it stands alone and has a repeated group as its only
part: then it is this part. -/
def join : Place → List Extent → Extent
  | .alone, [e] => if e.isRepeatedGroup then e else concatenation [e]
  | _, parts => concatenation parts

mutual

/-- Replaces, from `place` on, every concatenation that stands alone and has a repeated group as its
only part by this part. -/
def unwrapAt : Place → Extent → Extent
  | _, leaf c => leaf c
  | place, concatenation parts => join place (unwrapAll .part parts)
  | _, union alternatives => union (unwrapAll .alone alternatives)
  | _, repetition body => repetition (unwrapAt .alone body)

def unwrapAll : Place → List Extent → List Extent
  | _, [] => []
  | place, e :: others => unwrapAt place e :: unwrapAll place others

end

/-- The tree without concatenations of a single repeated group, except among the parts of another
concatenation. -/
def unwrap (e : Extent) : Extent := e.unwrapAt .alone

mutual

/-- From `place` on, no concatenation that stands alone has a repeated group as its only part. -/
def BareAt : Place → Extent → Prop
  | _, leaf _ => True
  | place, concatenation parts =>
    (place = .alone → ∀ e, parts = [e] → e.isRepeatedGroup = false) ∧ BareAll .part parts
  | _, union alternatives => BareAll .alone alternatives
  | _, repetition body => BareAt .alone body

def BareAll : Place → List Extent → Prop
  | _, [] => True
  | place, e :: others => BareAt place e ∧ BareAll place others

end

/-- No concatenation has a repeated group as its only part, except among the parts of another
concatenation. -/
def Bare (e : Extent) : Prop := e.BareAt .alone

/-! ## Joining parts -/

@[simp]
theorem join_part (parts : List Extent) : join .part parts = concatenation parts := by
  cases parts <;> rfl

/-- Parts are joined to their concatenation, or are one repeated group and joined to this. -/
theorem join_cases (place : Place) (parts : List Extent) :
    join place parts = concatenation parts ∨
      ∃ body, place = .alone ∧ parts = [repetition body] ∧ body.isLeaf = false ∧
        join place parts = repetition body := by
  match place, parts with
  | .part, parts => exact .inl (join_part parts)
  | .alone, [] => exact .inl rfl
  | .alone, first :: second :: others => exact .inl rfl
  | .alone, [leaf c] => exact .inl rfl
  | .alone, [concatenation parts] => exact .inl rfl
  | .alone, [union alternatives] => exact .inl rfl
  | .alone, [repetition body] =>
    cases hleaf : body.isLeaf with
    | true => exact .inl (by simp [join, isRepeatedGroup, hleaf])
    | false => exact .inr ⟨body, rfl, rfl, hleaf, by simp [join, isRepeatedGroup, hleaf]⟩

theorem isLeaf_join (place : Place) (parts : List Extent) : (join place parts).isLeaf = false := by
  rcases join_cases place parts with h | ⟨body, -, -, -, h⟩ <;> rw [h] <;> rfl

theorem isUnion_join (place : Place) (parts : List Extent) :
    (join place parts).isUnion = false := by
  rcases join_cases place parts with h | ⟨body, -, -, -, h⟩ <;> rw [h] <;> rfl

theorem isLeaf_unwrapAt (place : Place) (e : Extent) : (e.unwrapAt place).isLeaf = e.isLeaf := by
  cases e with
  | leaf c => rfl
  | concatenation parts => exact isLeaf_join ..
  | union alternatives => rfl
  | repetition body => rfl

theorem isUnion_unwrapAt (place : Place) (e : Extent) :
    (e.unwrapAt place).isUnion = e.isUnion := by
  cases e with
  | leaf c => rfl
  | concatenation parts => exact isUnion_join ..
  | union alternatives => rfl
  | repetition body => rfl

/-- Among parts no extent changes its kind. -/
theorem isUnit_unwrapAt_part (e : Extent) : (e.unwrapAt .part).isUnit = e.isUnit := by
  cases e with
  | leaf c => rfl
  | concatenation parts => rw [unwrapAt, join_part]; rfl
  | union alternatives => rfl
  | repetition body => rfl

/-! ## What stays as it was -/

/-- A lone repetition is spelled as the concatenation of it. -/
theorem spelling_join (place : Place) (parts : List Extent) :
    (join place parts).spelling = spellParts parts := by
  rcases join_cases place parts with h | ⟨body, -, rfl, -, h⟩
  · rw [h, spelling]
  · rw [h]
    simp [spellParts, isUnit, bracketIf]

theorem leafCount_join (place : Place) (parts : List Extent) :
    (join place parts).leafCount = leafCountAll parts := by
  rcases join_cases place parts with h | ⟨body, -, rfl, -, h⟩
  · rw [h, leafCount]
  · rw [h]
    rfl

theorem wire_join (place : Place) (parts : List Extent) (n : Nat) (S R : List StateId) :
    (join place parts).wire n S R = wireParts parts n S R := by
  rcases join_cases place parts with h | ⟨body, -, rfl, -, h⟩
  · rw [h, wire]
  · rw [h, wireParts]

theorem nesting_join_le (place : Place) (parts : List Extent) :
    (join place parts).nesting ≤ nestingAll parts + 1 := by
  rcases join_cases place parts with h | ⟨body, -, rfl, -, h⟩
  · rw [h, nesting]
  · rw [h, nestingAll]
    exact Nat.le_succ_of_le (Nat.le_max_left ..)

mutual

theorem spelling_unwrapAt : ∀ (place : Place) (e : Extent),
    (e.unwrapAt place).spelling = e.spelling
  | _, leaf c => rfl
  | place, concatenation parts => by
    rw [unwrapAt, spelling_join, spellParts_unwrapAll parts, spelling]
  | _, union alternatives => spellAlternatives_unwrapAll alternatives
  | _, repetition body => by
    rw [unwrapAt, spelling, spelling, isLeaf_unwrapAt, spelling_unwrapAt .alone body]

theorem spellParts_unwrapAll : ∀ es : List Extent, spellParts (unwrapAll .part es) = spellParts es
  | [] => rfl
  | e :: others => by
    rw [unwrapAll, spellParts_cons, spellParts_cons, isUnit_unwrapAt_part, spelling_unwrapAt .part e,
      spellParts_unwrapAll others]

theorem spellAlternatives_unwrapAll : ∀ es : List Extent,
    spellAlternatives (unwrapAll .alone es) = spellAlternatives es
  | [] => rfl
  | [last] => by
    simp only [unwrapAll, spellAlternatives, isUnion_unwrapAt, spelling_unwrapAt .alone last]
  | first :: second :: others => by
    have hothers := spellAlternatives_unwrapAll (second :: others)
    have hne : unwrapAll .alone (second :: others) ≠ [] := List.cons_ne_nil _ _
    rw [unwrapAll, spellAlternatives_cons _ hne, hothers, isUnion_unwrapAt,
      spelling_unwrapAt .alone first]
    rfl

end

mutual

theorem leafCount_unwrapAt : ∀ (place : Place) (e : Extent),
    (e.unwrapAt place).leafCount = e.leafCount
  | _, leaf c => rfl
  | place, concatenation parts => by
    rw [unwrapAt, leafCount_join, leafCountAll_unwrapAll, leafCount]
  | _, union alternatives => leafCountAll_unwrapAll .alone alternatives
  | _, repetition body => leafCount_unwrapAt .alone body

theorem leafCountAll_unwrapAll : ∀ (place : Place) (es : List Extent),
    leafCountAll (unwrapAll place es) = leafCountAll es
  | _, [] => rfl
  | place, e :: others => by
    rw [unwrapAll, leafCountAll, leafCountAll, leafCount_unwrapAt, leafCountAll_unwrapAll]

end

mutual

theorem wire_unwrapAt : ∀ (place : Place) (e : Extent) (n : Nat) (S R : List StateId),
    (e.unwrapAt place).wire n S R = e.wire n S R
  | _, leaf c, _, _, _ => rfl
  | place, concatenation parts, n, S, R => by
    rw [unwrapAt, wire_join, wireParts_unwrapAll, wire]
  | _, union alternatives, n, S, R => by
    rw [unwrapAt, wire, wire, wireAlternatives_unwrapAll]
  | _, repetition body, n, S, R => by
    cases hleaf : body.isLeaf with
    | true =>
      obtain ⟨c, rfl⟩ := exists_leaf_of_isLeaf hleaf
      rfl
    | false =>
      have hleaf' : (body.unwrapAt .alone).isLeaf = false := by rw [isLeaf_unwrapAt, hleaf]
      rw [unwrapAt, wire_repetition hleaf, wire_repetition hleaf', wire_unwrapAt .alone body]

theorem wireParts_unwrapAll : ∀ (es : List Extent) (n : Nat) (S R : List StateId),
    wireParts (unwrapAll .part es) n S R = wireParts es n S R
  | [], _, _, _ => rfl
  | [last], n, S, R => wire_unwrapAt .part last n S R
  | first :: second :: others, n, S, R => by
    have hothers := wireParts_unwrapAll (second :: others)
    rw [unwrapAll] at hothers
    simp only [unwrapAll, wireParts, hothers, wire_unwrapAt .part first, leafCount_unwrapAt]

theorem wireAlternatives_unwrapAll : ∀ (es : List Extent) (n : Nat) (S R : List StateId),
    wireAlternatives (unwrapAll .alone es) n S R = wireAlternatives es n S R
  | [], _, _, _ => rfl
  | e :: others, n, S, R => by
    simp only [unwrapAll, wireAlternatives, wireAlternatives_unwrapAll others,
      wire_unwrapAt .alone e, leafCount_unwrapAt]

end

mutual

/-- Nothing gets deeper. -/
theorem nesting_unwrapAt_le : ∀ (place : Place) (e : Extent),
    (e.unwrapAt place).nesting ≤ e.nesting
  | _, leaf c => Nat.le_refl _
  | place, concatenation parts => by
    have hparts := nestingAll_unwrapAll_le .part parts
    rw [unwrapAt, nesting]
    exact Nat.le_trans (nesting_join_le ..) (Nat.succ_le_succ hparts)
  | _, union alternatives => Nat.succ_le_succ (nestingAll_unwrapAll_le .alone alternatives)
  | _, repetition body => by
    have hbody := nesting_unwrapAt_le .alone body
    rw [unwrapAt, nesting_repetition, nesting_repetition, isLeaf_unwrapAt]
    split
    · exact Nat.le_refl 0
    · exact Nat.succ_le_succ hbody

theorem nestingAll_unwrapAll_le : ∀ (place : Place) (es : List Extent),
    nestingAll (unwrapAll place es) ≤ nestingAll es
  | _, [] => Nat.le_refl _
  | place, e :: others => by
    rw [unwrapAll, nestingAll, nestingAll]
    exact max_le_max (nesting_unwrapAt_le place e) (nestingAll_unwrapAll_le place others)

end

/-- The automaton of the tree is the same, down to the order of its transitions. -/
theorem ofExtent_unwrap (e : Extent) : Automaton.ofExtent e.unwrap = Automaton.ofExtent e := by
  rw [Automaton.ofExtent, Automaton.ofExtent, wiring, wiring, unwrap, wire_unwrapAt,
    leafCount_unwrapAt]

theorem toPattern_unwrap (e : Extent) : e.unwrap.toPattern = e.toPattern :=
  congrArg String.ofList (spelling_unwrapAt .alone e)

/-! ## What is replaced -/

mutual

/-- A tree without such concatenations stays as it is. -/
theorem unwrapAt_of_bareAt : ∀ {place : Place} {e : Extent}, e.BareAt place → e.unwrapAt place = e
  | _, leaf c, _ => rfl
  | place, concatenation parts, h => by
    rw [unwrapAt, unwrapAll_of_bareAll h.2]
    rcases join_cases place parts with hjoin | ⟨body, hplace, rfl, hleaf, -⟩
    · exact hjoin
    · exact absurd (h.1 hplace (repetition body) rfl) (by simp [isRepeatedGroup, hleaf])
  | _, union alternatives, h => congrArg union (unwrapAll_of_bareAll h)
  | _, repetition body, h => congrArg repetition (unwrapAt_of_bareAt h)

theorem unwrapAll_of_bareAll : ∀ {place : Place} {es : List Extent}, BareAll place es →
    unwrapAll place es = es
  | _, [], _ => rfl
  | place, e :: others, h => by
    rw [unwrapAll, unwrapAt_of_bareAt h.1, unwrapAll_of_bareAll h.2]

end

mutual

/-- None is left. -/
theorem bareAt_unwrapAt : ∀ (place : Place) (e : Extent), (e.unwrapAt place).BareAt place
  | _, leaf c => trivial
  | place, concatenation parts => by
    have hparts := bareAll_unwrapAll .part parts
    rcases join_cases place (unwrapAll .part parts) with h | ⟨body, -, hlone, -, h⟩
    · rw [unwrapAt, h]
      refine ⟨fun hplace e he => ?_, hparts⟩
      -- were it a repeated group, the join would not be the concatenation
      cases hgroup : e.isRepeatedGroup with
      | false => rfl
      | true =>
        rw [hplace, he, join, if_pos hgroup] at h
        exact absurd (h ▸ hgroup) (by simp [isRepeatedGroup])
    · rw [unwrapAt, h]
      rw [hlone] at hparts
      exact hparts.1
  | _, union alternatives => bareAll_unwrapAll .alone alternatives
  | _, repetition body => bareAt_unwrapAt .alone body

theorem bareAll_unwrapAll : ∀ (place : Place) (es : List Extent),
    BareAll place (unwrapAll place es)
  | _, [] => trivial
  | place, e :: others => ⟨bareAt_unwrapAt place e, bareAll_unwrapAll place others⟩

end

/-- **A tree stays as it is exactly if there is nothing to replace in it.** -/
theorem unwrap_eq_self_iff {e : Extent} : e.unwrap = e ↔ e.Bare := by
  refine ⟨fun h => ?_, unwrapAt_of_bareAt⟩
  rw [← h]
  exact bareAt_unwrapAt .alone e

instance (e : Extent) : Decidable e.Bare := decidable_of_iff (e.unwrap = e) unwrap_eq_self_iff

/-- In `((b)^)` there is something to replace, in `a((b)^)` there is not. -/
example : ¬ (concatenation [repetition (literal ['b'])]).Bare ∧
    (concatenation [leaf 'a', concatenation [repetition (literal ['b'])]]).Bare := by
  decide

end CaretAutomata.Extent

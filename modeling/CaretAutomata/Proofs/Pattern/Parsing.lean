import CaretAutomata.Pattern.Reading
import CaretAutomata.Proofs.Pattern.Outline

/-!
# What is in the grammar is read

`read_matched`: the text of an expression is read without a fault, and the tree that comes out is
the expression's own. It needs a level of depth for each character at most, since every stretch
inside another one is shorter than it — with one exception that the proof has to see: a sequence
can be all of what it was read from, when brackets were left out around it. A starred group is then
read from a stretch as long as the sequence, but never as long as the text with the brackets.

The other direction is in `Derivation.lean`.
-/

namespace CaretAutomata.Pattern

open Stretch

/-- What becomes of an outline when the stretches in it are read by `read`. -/
def Outline.readWith (read : Stretch → Except Fault Extent) : Outline → Except Fault Extent
  | .faulty fault => .error (.structural fault)
  | .repetition body => do
    return .repetition (← read body)
  | .sequence parts fault => do
    let parts ← parts.mapM (Part.readWith read)
    raise fault
    return .concatenation parts
  | .choice alternatives fault => do
    let alternatives ← alternatives.mapM read
    raise fault
    return .union alternatives

/-- A stretch is read by its outline, one level deeper. -/
theorem read_succ (limit budget : Nat) (s : Stretch) :
    read limit (budget + 1) s = s.outline.readWith (read limit budget) := by
  rw [read]
  cases s.outline <;> rfl

/-! ## What is in the grammar is read -/

def Alternative.items : Alternative → List Item
  | .one i => [i]
  | .more i others => i :: others.items

def Expression.alternatives : Expression → List Alternative
  | .one a => [a]
  | .more a others => a :: others.alternatives

theorem Item.length_spelling_pos (i : Item) : 0 < i.spelling.length := by
  cases i <;> simp [Item.spelling]

theorem Alternative.length_spelling_pos (a : Alternative) : 0 < a.spelling.length := by
  cases a with
  | one i => exact i.length_spelling_pos
  | more i others =>
    have := i.length_spelling_pos
    simp only [Alternative.spelling, List.length_append]
    omega

theorem Expression.length_spelling_pos (e : Expression) : 0 < e.spelling.length := by
  cases e with
  | one a => exact a.length_spelling_pos
  | more a others =>
    simp only [Expression.spelling, List.length_append, List.length_cons]
    omega

theorem Alternative.length_spelling_item_le : ∀ {a : Alternative} {i : Item}, i ∈ a.items →
    i.spelling.length ≤ a.spelling.length
  | .one i, j, h => by
    rw [List.mem_singleton.mp h]
    exact Nat.le_refl _
  | .more i others, j, h => by
    simp only [Alternative.spelling, List.length_append]
    rcases List.mem_cons.mp h with rfl | h
    · omega
    · have := Alternative.length_spelling_item_le h
      omega

theorem Alternative.length_spelling_item_lt {i j : Item} {others : Alternative}
    (h : j ∈ (Alternative.more i others).items) :
    j.spelling.length < (Alternative.more i others).spelling.length := by
  have hi := i.length_spelling_pos
  have hothers := others.length_spelling_pos
  simp only [Alternative.spelling, List.length_append]
  rcases List.mem_cons.mp h with rfl | h
  · omega
  · have := Alternative.length_spelling_item_le h
    omega

theorem Expression.length_spelling_alternative_le : ∀ {e : Expression} {a : Alternative},
    a ∈ e.alternatives → a.spelling.length ≤ e.spelling.length
  | .one a, b, h => by
    rw [List.mem_singleton.mp h]
    exact Nat.le_refl _
  | .more a others, b, h => by
    simp only [Expression.spelling, List.length_append, List.length_cons]
    rcases List.mem_cons.mp h with rfl | h
    · omega
    · have := Expression.length_spelling_alternative_le h
      omega

theorem Expression.length_spelling_alternative_lt {a b : Alternative} {others : Expression}
    (h : b ∈ (Expression.more a others).alternatives) :
    b.spelling.length < (Expression.more a others).spelling.length := by
  simp only [Expression.spelling, List.length_append, List.length_cons]
  rcases List.mem_cons.mp h with rfl | h
  · omega
  · have := Expression.length_spelling_alternative_le h
    omega

theorem Expression.length_spelling_opened_le (e : Expression) :
    e.opened.spelling.length ≤ e.spelling.length := by
  cases e with
  | more a others => exact Nat.le_refl _
  | one a =>
    cases a with
    | more i others => exact Nat.le_refl _
    | one i =>
      cases i with
      | sign c starred => exact Nat.le_refl _
      | group body starred =>
        cases starred with
        | true => exact Nat.le_refl _
        | false =>
          have := body.length_spelling_opened_le
          simp only [Expression.opened, Expression.spelling, Alternative.spelling, Item.spelling,
            List.length_cons, List.length_append]
          omega

/-- A starred group that turns up behind brackets is shorter than what these enclose. -/
theorem Expression.length_spelling_opened_lt {e : Expression} (h : e.isStarredGroup = false)
    (hopened : e.opened.isStarredGroup = true) : e.opened.spelling.length < e.spelling.length := by
  match e with
  | .one (.one (.group body false)) =>
    have := body.length_spelling_opened_le
    simp only [Expression.opened, Expression.spelling, Alternative.spelling, Item.spelling,
      List.length_cons, List.length_append]
    omega
  | .one (.one (.group _ true)) | .one (.one (.sign ..)) | .one (.more ..) | .more .. =>
    exact absurd (h.symm.trans hopened) (by decide)

/-- The groups in a sequence are shorter than what it was read from: a group that is all of the
sequence is starred, and stands behind brackets. -/
theorem Alternative.length_spelling_group_le {budget : Nat} : ∀ {a : Alternative},
    (Expression.one a).isPlainGroup = false →
    ((Expression.one a).isStarredGroup = true → a.spelling.length < budget + 1) →
    a.spelling.length ≤ budget + 1 →
    ∀ i ∈ a.items, ∀ body starred, i = .group body starred → i.spelling.length ≤ budget
  | .one i, hplain, hstarred, _, j, hj, body, starred, hgroup => by
    rw [List.mem_singleton.mp hj] at hgroup ⊢
    subst hgroup
    cases starred with
    | false => exact absurd hplain (by simp [Expression.isPlainGroup])
    | true => exact Nat.le_of_lt_succ (hstarred rfl)
  | .more i others, _, _, hle, j, hj, _, _, _ => by
    have := Alternative.length_spelling_item_lt hj
    omega

theorem Expression.content_one : ∀ {a : Alternative}, (Expression.one a).isPlainGroup = false →
    (Expression.one a).content = .concatenation a.trees
  | .one (.group body false), h => absurd h (by simp [Expression.isPlainGroup])
  | .one (.group _ true), _ | .one (.sign ..), _ | .more .., _ => rfl

section Complete

variable {limit budget : Nat}
  (hread : ∀ (e : Expression) (start : Nat), e.spelling.length ≤ budget →
    read limit budget (matched start e.nodes) = .ok e.tree)

include hread

theorem Item.readWith_part (position : Nat) {i : Item}
    (h : ∀ body starred, i = .group body starred → i.spelling.length ≤ budget) :
    (i.part position).readWith (read limit budget) = .ok i.tree := by
  match i with
  | .sign c true | .sign c false => rfl
  | .group body starred =>
    show read limit budget (matched position _) = _
    rw [← Item.tree_group]
    exact hread (.one (.one (.group body starred))) position (h body starred rfl)

theorem Alternative.mapM_parts : ∀ (a : Alternative) (position : Nat),
    (∀ i ∈ a.items, ∀ body starred, i = .group body starred → i.spelling.length ≤ budget) →
    (a.parts position).mapM (Part.readWith (read limit budget)) = .ok a.trees
  | .one i, position, h => by
    rw [Alternative.parts, List.mapM_cons, Item.readWith_part hread position (h i (.head _))]
    rfl
  | .more i others, position, h => by
    rw [Alternative.parts, List.mapM_cons, Item.readWith_part hread position (h i (.head _)),
      Alternative.mapM_parts others _ fun j hj => h j (.tail _ hj)]
    rfl

theorem Expression.mapM_stretches : ∀ (e : Expression) (position : Nat),
    (∀ a ∈ e.alternatives, a.spelling.length ≤ budget) →
    (e.stretches position).mapM (read limit budget) = .ok e.trees
  | .one a, position, h => by
    have ha : read limit budget (matched position (a.onto .nil)) = .ok a.tree :=
      hread (.one a) position (h a (.head _))
    rw [Expression.stretches, List.mapM_cons, ha]
    rfl
  | .more a others, position, h => by
    have ha : read limit budget (matched position (a.onto .nil)) = .ok a.tree :=
      hread (.one a) position (h a (.head _))
    rw [Expression.stretches, List.mapM_cons, ha,
      Expression.mapM_stretches others _ fun b hb => h b (.tail _ hb)]
    rfl

end Complete

/-- **The text of an expression is read, and gives its tree**, if there is a level of depth for
each of its characters. -/
theorem read_matched (limit : Nat) : ∀ (budget : Nat) (e : Expression) (start : Nat),
    e.spelling.length ≤ budget → read limit budget (matched start e.nodes) = .ok e.tree := by
  intro budget
  induction budget with
  | zero =>
    intro e start h
    have := e.length_spelling_pos
    omega
  | succ budget ih =>
    intro e start h
    rw [read_succ]
    by_cases hstarred : e.isStarredGroup = true
    · match e with
      | .one (.one (.group body true)) =>
        have hbody : body.spelling.length ≤ budget := by
          simp only [Expression.spelling, Alternative.spelling, Item.spelling, List.length_cons,
            List.length_append] at h
          omega
        rw [outline_starredGroup, Outline.readWith, ih body _ hbody]
        rfl
    · have hplain : e.isStarredGroup = false := by simpa using hstarred
      obtain ⟨start', houtline⟩ := outline_of_isStarredGroup_eq_false start hplain
      have hlength := e.length_spelling_opened_le
      rw [Expression.tree_eq_content hplain, ← e.content_opened, houtline]
      have hopened := e.isPlainGroup_opened
      have hlt := Expression.length_spelling_opened_lt hplain
      -- What the brackets enclose is a sequence or a choice; all stretches in it are shorter.
      match heq : e.opened with
      | .one a =>
        rw [heq] at hopened hlt hlength
        have hitems := Alternative.length_spelling_group_le hopened
          (fun hs => Nat.lt_of_lt_of_le (hlt hs) h) (Nat.le_trans hlength h)
        rw [inner_one, Outline.readWith, Alternative.mapM_parts ih a start' hitems,
          Expression.content_one hopened]
        rfl
      | .more a others =>
        rw [heq] at hlength
        have halternatives : ∀ b ∈ (Expression.more a others).alternatives,
            b.spelling.length ≤ budget := by
          intro b hb
          have := Expression.length_spelling_alternative_lt hb
          omega
        rw [inner_more, Outline.readWith, Expression.mapM_stretches ih _ start' halternatives]
        rfl

end CaretAutomata.Pattern

import CaretAutomata.Proofs.Extent.Positions
import CaretAutomata.Proofs.Pattern.RoundTrip

/-!
# From the text to the leaves

The states of a pattern's automaton are numbered as the leaves of its tree stand, and the leaves
stand as their characters do in the text. Between the two lies the reading of the pattern, which
leaves brackets out in one place and not in another. What it never touches are the *signs* of a
pattern: its ordinary characters, each with or without a marker behind it, and the ends of its
repeated groups. `Expression.signs_tree` says that tree and text have the same signs in the same
order, so no leaf is lost, doubled or put elsewhere.

What a sign means is then said twice. In the text it is what stands next to what (`getElem?_letters`,
`mem_round`), in the tree which leaf follows itself (`loopsOn_signs`).
-/

namespace CaretAutomata

/-- What brackets and bars leave of a pattern. -/
inductive Sign where
  /-- A character, and whether it is repeated by itself. -/
  | letter (c : Char) (starred : Bool)
  /-- The end of a repeated group. -/
  | round
  deriving DecidableEq, Repr

namespace Sign

def letter? : Sign → Option (Char × Bool)
  | letter c starred => some (c, starred)
  | round => none

/-- The characters among some signs. -/
def letters (signs : List Sign) : List (Char × Bool) := signs.filterMap letter?

@[simp]
theorem letters_nil : letters [] = [] := rfl

@[simp]
theorem letters_letter (c : Char) (starred : Bool) (others : List Sign) :
    letters (.letter c starred :: others) = (c, starred) :: letters others := rfl

@[simp]
theorem letters_round (others : List Sign) : letters (.round :: others) = letters others := rfl

@[simp]
theorem letters_append (front back : List Sign) :
    letters (front ++ back) = letters front ++ letters back :=
  List.filterMap_append

end Sign

/-! ## The signs of a text -/

namespace Pattern

open Extent (IsOrdinary)

/-- The characters of a text that stand for themselves. -/
def letters (text : List Char) : List Char := text.filter fun c => decide (IsOrdinary c)

theorem letters_cons_of_ordinary {c : Char} (h : IsOrdinary c) (rest : List Char) :
    letters (c :: rest) = c :: letters rest :=
  List.filter_cons_of_pos (decide_eq_true h)

theorem letters_cons_of_not_ordinary {c : Char} (h : ¬ IsOrdinary c) (rest : List Char) :
    letters (c :: rest) = letters rest :=
  List.filter_cons_of_neg (by simpa using h)

theorem mem_letters {text : List Char} {c : Char} : c ∈ letters text ↔ c ∈ text ∧ IsOrdinary c := by
  rw [letters, List.mem_filter, decide_eq_true_iff]

/-- The sign of a character, and of the marker directly behind it. -/
def signs : List Char → List Sign
  | [] => []
  | c :: rest =>
    let starred := rest.head? == some '^'
    if IsOrdinary c then .letter c starred :: signs rest
    else if c = ')' ∧ starred then .round :: signs rest
    else signs rest

theorem signs_cons_of_ordinary {c : Char} (h : IsOrdinary c) (rest : List Char) :
    signs (c :: rest) = .letter c (rest.head? == some '^') :: signs rest := by
  rw [signs, if_pos h]

theorem signs_cons_of_ne {c : Char} (h : ¬ IsOrdinary c) (hclose : c ≠ ')') (rest : List Char) :
    signs (c :: rest) = signs rest := by
  rw [signs, if_neg h, if_neg fun hround => hclose hround.1]

/-- Two texts one behind the other, where no marker is taken from its character. -/
theorem signs_append (first : List Char) {second : List Char} (h : second.head? ≠ some '^') :
    signs (first ++ second) = signs first ++ signs second := by
  induction first with
  | nil => rfl
  | cons c rest ih =>
    have hhead : ((rest ++ second).head? == some '^') = (rest.head? == some '^') := by
      cases rest with
      | nil => simpa using h
      | cons d others => rfl
    rw [List.cons_append, signs, hhead, ih, signs]
    split
    · rfl
    · split
      · rfl
      · rfl

/-- A character that does not stand for itself adds no letter. -/
theorem letters_signs_cons {c : Char} (h : ¬ IsOrdinary c) (rest : List Char) :
    Sign.letters (signs (c :: rest)) = Sign.letters (signs rest) := by
  rw [signs, if_neg h]
  split
  · rfl
  · rfl

theorem map_fst_letters (text : List Char) :
    (Sign.letters (signs text)).map Prod.fst = letters text := by
  induction text with
  | nil => rfl
  | cons c rest ih =>
    by_cases hc : IsOrdinary c
    · rw [signs_cons_of_ordinary hc, letters_cons_of_ordinary hc, Sign.letters_letter, List.map_cons,
        ih]
    · rw [letters_signs_cons hc, letters_cons_of_not_ordinary hc, ih]

/-- The `i`-th letter is starred if a marker stands directly behind it in the text. -/
theorem getElem?_letters {text : List Char} {i : Nat} {c : Char} :
    (Sign.letters (signs text))[i]? = some (c, true) ↔
      ∃ before behind, text = before ++ c :: '^' :: behind ∧ IsOrdinary c ∧
        (letters before).length = i := by
  constructor
  · induction text generalizing i with
    | nil => exact fun h => absurd h (by simp [signs])
    | cons d rest ih =>
      intro h
      by_cases hd : IsOrdinary d
      · rw [signs_cons_of_ordinary hd, Sign.letters_letter] at h
        cases i with
        | zero =>
          obtain ⟨rfl, hhead⟩ := Prod.mk.inj (Option.some.inj h)
          obtain ⟨behind, rfl⟩ := List.head?_eq_some_iff.mp (beq_iff_eq.mp hhead)
          exact ⟨[], behind, rfl, hd, rfl⟩
        | succ i =>
          obtain ⟨before, behind, rfl, hc, hlength⟩ := ih h
          refine ⟨d :: before, behind, rfl, hc, ?_⟩
          rw [letters_cons_of_ordinary hd, List.length_cons, hlength]
      · rw [letters_signs_cons hd] at h
        obtain ⟨before, behind, rfl, hc, hlength⟩ := ih h
        refine ⟨d :: before, behind, rfl, hc, ?_⟩
        rw [letters_cons_of_not_ordinary hd, hlength]
  · intro h
    obtain ⟨before, behind, rfl, hc, rfl⟩ := h
    have hhead : (c :: '^' :: behind).head? ≠ some '^' := by
      simpa using hc.2.2.2
    rw [signs_append before hhead, Sign.letters_append, ← map_fst_letters, List.length_map,
      signs_cons_of_ordinary hc, List.getElem?_append_right (Nat.le_refl _), Nat.sub_self]
    rfl

/-- A repeated group ends where a marker stands directly behind a closing bracket. -/
theorem mem_round {text : List Char} : .round ∈ signs text ↔ [')', '^'] <:+: text := by
  induction text with
  | nil => simp [signs]
  | cons c rest ih =>
    have hhead : rest.head? = some '^' ↔ ['^'] <+: rest := by
      cases rest with
      | nil => simp
      | cons d others => simp [List.cons_prefix_cons, eq_comm]
    rw [List.infix_cons_iff, List.cons_prefix_cons, ← ih, ← hhead, signs]
    split
    · next hc => simp [hc.2.1.symm]
    · split
      · next hround => simp [hround.1, beq_iff_eq.mp hround.2]
      · next hround =>
        rw [beq_iff_eq, eq_comm (a := c)] at hround
        simp [hround]

end Pattern

/-! ## The signs of a tree -/

namespace Extent

mutual

def signs : Extent → List Sign
  | leaf c => [.letter c false]
  | concatenation parts => signsAll parts
  | union alternatives => signsAll alternatives
  | repetition (leaf c) => [.letter c true]
  | repetition body => body.signs ++ [.round]

def signsAll : List Extent → List Sign
  | [] => []
  | e :: others => e.signs ++ signsAll others

end

theorem signs_repetition {body : Extent} (h : body.isLeaf = false) :
    (repetition body).signs = body.signs ++ [.round] := by
  cases body with
  | leaf c => exact absurd h (by simp [isLeaf])
  | concatenation parts => rfl
  | union alternatives => rfl
  | repetition body => rfl

mutual

theorem map_fst_letters : ∀ e : Extent, (Sign.letters e.signs).map Prod.fst = e.characters
  | leaf _ => rfl
  | concatenation parts => map_fst_lettersAll parts
  | union alternatives => map_fst_lettersAll alternatives
  | repetition body => by
    cases hleaf : body.isLeaf with
    | true =>
      obtain ⟨c, rfl⟩ := exists_leaf_of_isLeaf hleaf
      rfl
    | false =>
      rw [signs_repetition hleaf, Sign.letters_append, Sign.letters_round, Sign.letters_nil,
        List.append_nil, map_fst_letters body]
      rfl

theorem map_fst_lettersAll : ∀ es : List Extent,
    (Sign.letters (signsAll es)).map Prod.fst = charactersAll es
  | [] => rfl
  | e :: others => by
    rw [signsAll, Sign.letters_append, List.map_append, map_fst_letters e,
      map_fst_lettersAll others]
    rfl

end

theorem length_letters (e : Extent) : (Sign.letters e.signs).length = e.leafCount := by
  rw [← length_characters, ← map_fst_letters, List.length_map]

end Extent

/-! ## Leaves that follow themselves -/

namespace Positions

/-- Of the leaves from `n` on, those follow themselves that are starred. -/
def LoopsOn (P : Positions) (n : Nat) (signs : List Sign) : Prop :=
  ∀ i, P.Follows (n + i) (n + i) ↔ ∃ c, (Sign.letters signs)[i]? = some (c, true)

/-- Leaves in front and leaves behind: none of the former is one of the latter. -/
theorem LoopsOn.append {P Q R : Positions} {n m b : Nat} {front back : List Sign}
    (hP : P.LoopsOn n front) (hQ : Q.LoopsOn (n + m) back) (hlength : (Sign.letters front).length = m)
    (hwithinP : P.Within n (n + m)) (hwithinQ : Q.Within (n + m) b)
    (hR : ∀ x, R.Follows x x ↔ P.Follows x x ∨ Q.Follows x x) : R.LoopsOn n (front ++ back) := by
  intro i
  rw [hR, Sign.letters_append]
  subst hlength
  by_cases hi : i < (Sign.letters front).length
  · have hnone : ¬ Q.Follows (n + i) (n + i) := by
      intro h
      have hle := (hwithinQ.links _ _ (.inl h)).1.1
      omega
    rw [or_iff_left hnone, hP, List.getElem?_append_left hi]
  · obtain ⟨j, rfl⟩ := Nat.exists_eq_add_of_le (Nat.not_lt.mp hi)
    have hnone : ¬ P.Follows (n + ((Sign.letters front).length + j))
        (n + ((Sign.letters front).length + j)) := by
      intro h
      have hlt := (hwithinP.links _ _ (.inl h)).1.2
      omega
    rw [or_iff_right hnone, List.getElem?_append_right (Nat.le_add_right _ _),
      Nat.add_sub_cancel_left, ← Nat.add_assoc]
    exact hQ j

end Positions

namespace Extent

open Positions

mutual

/-- **A leaf follows itself exactly if it is starred.** -/
theorem loopsOn_signs : ∀ (e : Extent) (n : Nat), (e.positions n).LoopsOn n e.signs
  | leaf c, n => by
    intro i
    simp [positions, single, Follows, signs, List.getElem?_singleton]
  | concatenation parts, n => loopsOn_signsParts parts n
  | union alternatives, n => loopsOn_signsAlternatives alternatives n
  | repetition body, n => by
    have hbody := loopsOn_signs body n
    cases hleaf : body.isLeaf with
    | true =>
      obtain ⟨c, rfl⟩ := exists_leaf_of_isLeaf hleaf
      intro i
      show (n + i, n + i) ∈ [(n, n)] ↔ ∃ d, [(c, true)][i]? = some (d, true)
      cases i with
      | zero => simp
      | succ i => simp
    | false =>
      -- a new round is no following, and its end no leaf
      intro i
      rw [positions_repetition, hleaf, signs_repetition hleaf, Sign.letters_append,
        Sign.letters_round, Sign.letters_nil, List.append_nil]
      exact hbody i

theorem loopsOn_signsParts : ∀ (es : List Extent) (n : Nat),
    (positionsParts es n).LoopsOn n (signsAll es)
  | [], n => by
    intro i
    simp [positionsParts, skip, Follows, signsAll]
  | e :: others, n => by
    have hfirst := within_positions e n
    have hothers := within_positionsParts others (n + e.leafCount)
    refine (loopsOn_signs e n).append (loopsOn_signsParts others _) e.length_letters hfirst hothers
      fun x => ?_
    unfold Follows
    rw [positionsParts, mem_follow_before, ← or_assoc, or_iff_left]
    intro h
    have hlt := (hfirst.last x h.1).2
    have hle := (hothers.first x h.2).1
    omega

theorem loopsOn_signsAlternatives : ∀ (es : List Extent) (n : Nat),
    (positionsAlternatives es n).LoopsOn n (signsAll es)
  | [], n => by
    intro i
    simp [positionsAlternatives, never, Follows, signsAll]
  | e :: others, n => by
    refine (loopsOn_signs e n).append (loopsOn_signsAlternatives others _) e.length_letters
      (within_positions e n) (within_positionsAlternatives others _) fun x => ?_
    exact List.mem_append

end

end Extent

/-! ## Text and tree have the same signs -/

namespace Pattern

open Extent

/-- The end of a group, if it is repeated. -/
def roundIf (starred : Bool) : List Sign := if starred then [.round] else []

theorem signs_close (starred : Bool) : signs (')' :: markerIf starred) = roundIf starred := by
  cases starred <;> rfl

theorem signs_group (text : List Char) (starred : Bool) :
    signs ('(' :: (text ++ ')' :: markerIf starred)) = signs text ++ roundIf starred := by
  have hclose : (')' :: markerIf starred).head? ≠ some '^' := by simp
  rw [signs_cons_of_ne (by decide) (by decide), signs_append text hclose, signs_close]

theorem signs_bar (first second : List Char) :
    signs (first ++ '|' :: second) = signs first ++ signs second := by
  rw [signs_append first (by simp), signs_cons_of_ne (by decide) (by decide)]

theorem signs_letter (c : Ordinary) (starred : Bool) :
    signs (c.val :: markerIf starred) = [.letter c.val starred] := by
  rw [signs_cons_of_ordinary c.property]
  cases starred <;> rfl

/-! Around an expression brackets may be left out and a concatenation put in, neither of which is a
sign: an expression has the signs of its alternatives, an alternative those of its items. -/

theorem Alternative.signs_tree (a : Alternative) : a.tree.signs = signsAll a.trees := by
  cases a with
  | more i others => rfl
  | one i =>
    rw [Alternative.trees, signsAll, signsAll, List.append_nil]
    cases i with
    | sign c starred => exact List.append_nil _
    | group body starred => rw [Item.tree_group]

theorem Expression.signs_tree_eq (e : Expression) : e.tree.signs = signsAll e.trees := by
  cases e with
  | more a others => rfl
  | one a =>
    rw [Expression.trees, signsAll, signsAll, List.append_nil]
    rfl

theorem Expression.signs_content (e : Expression) : e.content.signs = signsAll e.trees := by
  rw [← Expression.signs_tree_eq]
  cases hstarred : e.isStarredGroup with
  | false => rw [Expression.tree_eq_content hstarred]
  | true =>
    rw [Expression.content_of_isStarredGroup hstarred, Extent.signs, signsAll, signsAll,
      List.append_nil]

theorem Item.signs_group (body : Expression) (starred : Bool) :
    (Item.group body starred).tree.signs = signsAll body.trees ++ roundIf starred := by
  cases starred with
  | false => exact body.signs_content.trans (List.append_nil _).symm
  | true =>
    rw [Item.tree, signs_repetition body.wellBuilt_tree.isLeaf, body.signs_tree_eq]
    rfl

mutual

theorem Expression.signs_trees : ∀ e : Expression, signsAll e.trees = Pattern.signs e.spelling
  | .one a => by
    rw [Expression.trees, signsAll, signsAll, List.append_nil, a.signs_tree, a.signs_trees,
      Expression.spelling]
  | .more a others => by
    rw [Expression.trees, signsAll, a.signs_tree, a.signs_trees, others.signs_trees,
      Expression.spelling, signs_bar]

theorem Alternative.signs_trees : ∀ a : Alternative, signsAll a.trees = Pattern.signs a.spelling
  | .one i => by
    rw [Alternative.trees, signsAll, signsAll, List.append_nil, i.signs_tree, Alternative.spelling]
  | .more i others => by
    rw [Alternative.trees, signsAll, i.signs_tree, others.signs_trees, Alternative.spelling,
      signs_append _ others.head?_spelling]

theorem Item.signs_tree : ∀ i : Item, i.tree.signs = Pattern.signs i.spelling
  | .sign c starred => by
    rw [Item.spelling, signs_letter]
    cases starred <;> rfl
  | .group body starred => by
    rw [Item.signs_group, body.signs_trees, Item.spelling, Pattern.signs_group]

end

/-- **Text and tree of an expression have the same signs**, in the same order. -/
theorem Expression.signs_tree (e : Expression) : e.tree.signs = Pattern.signs e.spelling := by
  rw [Expression.signs_tree_eq, e.signs_trees]

/-- The leaves of an expression are the characters of its text that stand for themselves. -/
theorem Expression.characters_tree (e : Expression) : e.tree.characters = letters e.spelling := by
  rw [← Extent.map_fst_letters, e.signs_tree, Pattern.map_fst_letters]

end Pattern

end CaretAutomata

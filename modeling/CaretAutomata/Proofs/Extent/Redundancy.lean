import CaretAutomata.Proofs.Automaton.Wiring

/-!
# Structure that says nothing

A concatenation among the parts of a concatenation could as well be its parts, a union among
alternatives its alternatives, an operation on one extent alone could be that extent, and a
repetition repeated is repeated already. `Redundant` lists these, `Simplifies` makes use of one of
them anywhere in a tree, and `ofExtent_eq_of_simplifies` says that the automaton stays what it was,
down to the order in which its transitions were added.

What makes this more than a look at each case is what `wire` hands around. Leaves are numbered from
left to right, so the number of leaves must stay. Repeaters are given to the last part only, so a
concatenation must not be empty: of `a()` the last part is nothing, and `a` does not lead back. And
unions and repetitions make their exits distinct, which leaves no trace only where these are distinct
already, as they are in every part if the starters of the whole tree are (`nodup_exits_wire`).
`Interchangeable` puts the three together.
-/

namespace CaretAutomata

open Arrival (distinct distinct_append_distinct distinct_of_nodup merge_merge nodup_distinct)

/-! ## One wiring behind another, and one beside another -/

namespace Wiring

/-- What follows is wired from the exits. -/
def andThen (first : Wiring) (rest : List StateId → Wiring) : Wiring :=
  ⟨first.edges ++ (rest first.exits).edges, (rest first.exits).exits⟩

/-- Both are wired between the same states. -/
def beside (first second : Wiring) : Wiring :=
  ⟨first.edges ++ second.edges, first.exits ++ second.exits⟩

/-- The exits of alternatives are made distinct in their union. -/
def union (w : Wiring) : Wiring := ⟨w.edges, distinct w.exits⟩

theorem andThen_assoc (w : Wiring) (f g : List StateId → Wiring) :
    (w.andThen f).andThen g = w.andThen fun exits => (f exits).andThen g := by
  simp [andThen]

theorem beside_assoc (w₁ w₂ w₃ : Wiring) : (w₁.beside w₂).beside w₃ = w₁.beside (w₂.beside w₃) := by
  simp [beside]

/-- It makes no difference if the exits of some alternatives are made distinct before the rest. -/
theorem union_beside_union (w₁ w₂ w₃ : Wiring) :
    (w₁.beside (w₂.union.beside w₃)).union = (w₁.beside (w₂.beside w₃)).union := by
  simp only [union, beside, distinct_append_distinct]

end Wiring

namespace Extent

/-! ## The wiring of lists -/

theorem wireParts_cons {part : Extent} {others : List Extent} (hne : others ≠ []) (n : Nat)
    (S R : List StateId) : wireParts (part :: others) n S R =
      (part.wire n S []).andThen fun exits => wireParts others (n + part.leafCount) exits R := by
  cases others with
  | nil => exact absurd rfl hne
  | cons second others => rfl

/-- Only what stands at the end leads back to the repeaters. -/
theorem wireParts_append {back : List Extent} (hne : back ≠ []) : ∀ (front : List Extent) (n : Nat)
    (S R : List StateId), wireParts (front ++ back) n S R =
      (wireParts front n S []).andThen fun exits =>
        wireParts back (n + leafCountAll front) exits R
  | [], _, _, _ => rfl
  | [part], n, S, R => wireParts_cons hne n S R
  | part :: second :: others, n, S, R => by
    have hrest : second :: others ++ back ≠ [] := List.cons_ne_nil _ _
    have hothers : second :: others ≠ [] := List.cons_ne_nil _ _
    rw [List.cons_append, wireParts_cons hrest, wireParts_cons hothers, Wiring.andThen_assoc,
      leafCountAll, ← Nat.add_assoc]
    congr 1
    funext exits
    exact wireParts_append hne (second :: others) _ exits R

theorem wireAlternatives_cons (e : Extent) (others : List Extent) (n : Nat) (S R : List StateId) :
    wireAlternatives (e :: others) n S R =
      (e.wire n S R).beside (wireAlternatives others (n + e.leafCount) S R) := rfl

theorem wireAlternatives_append (front back : List Extent) (n : Nat) (S R : List StateId) :
    wireAlternatives (front ++ back) n S R =
      (wireAlternatives front n S R).beside
        (wireAlternatives back (n + leafCountAll front) S R) := by
  induction front generalizing n with
  | nil => rfl
  | cons e others ih =>
    rw [List.cons_append, wireAlternatives_cons, wireAlternatives_cons, Wiring.beside_assoc, ih,
      leafCountAll, ← Nat.add_assoc]

theorem wire_union (alternatives : List Extent) (n : Nat) (S R : List StateId) :
    (union alternatives).wire n S R = (wireAlternatives alternatives n S R).union := rfl

theorem leafCountAll_append : ∀ front back : List Extent,
    leafCountAll (front ++ back) = leafCountAll front + leafCountAll back
  | [], back => (Nat.zero_add _).symm
  | e :: others, back => by
    rw [List.cons_append, leafCountAll, leafCountAll, leafCountAll_append others, Nat.add_assoc]

mutual

/-- From distinct starters a part comes to distinct exits. -/
theorem nodup_exits_wire : ∀ (e : Extent) (n : Nat) (S R : List StateId), S.Nodup →
    (e.wire n S R).exits.Nodup
  | leaf _, n, _, _, _ => List.nodup_singleton n
  | concatenation parts, n, S, R, h => nodup_exits_wireParts parts n S R h
  | union _, _, _, _, _ => nodup_distinct _
  | repetition (leaf _), _, _, _, _ => nodup_distinct _
  | repetition (concatenation _), _, _, _, _ => nodup_distinct _
  | repetition (union _), _, _, _, _ => nodup_distinct _
  | repetition (repetition _), _, _, _, _ => nodup_distinct _

theorem nodup_exits_wireParts : ∀ (es : List Extent) (n : Nat) (S R : List StateId), S.Nodup →
    (wireParts es n S R).exits.Nodup
  | [], _, _, _, h => h
  | [last], n, S, R, h => nodup_exits_wire last n S R h
  | first :: second :: others, n, S, R, h => by
    have hfirst := nodup_exits_wire first n S [] h
    exact nodup_exits_wireParts (second :: others) _ _ R hfirst

end

/-! ## What is redundant -/

mutual

/-- No concatenation in the tree is empty. -/
def Filled : Extent → Prop
  | leaf _ => True
  | concatenation parts => parts ≠ [] ∧ FilledAll parts
  | union alternatives => FilledAll alternatives
  | repetition body => body.Filled

def FilledAll : List Extent → Prop
  | [] => True
  | e :: others => e.Filled ∧ FilledAll others

end

/-- The first extent, taken by itself, says no more than the second one. -/
inductive Redundant : Extent → Extent → Prop where
  | nestedConcatenation (front parts back : List Extent) :
    Redundant (concatenation (front ++ concatenation parts :: back))
      (concatenation (front ++ (parts ++ back)))
  | nestedUnion (front alternatives back : List Extent) :
    Redundant (union (front ++ union alternatives :: back))
      (union (front ++ (alternatives ++ back)))
  | onePart {e : Extent} (h : e.isLeaf = false) : Redundant (concatenation [e]) e
  | oneAlternative {e : Extent} (h : e.isLeaf = false) : Redundant (union [e]) e
  | repeatedTwice {e : Extent} (h : e.isLeaf = false) :
    Redundant (repetition (repetition e)) (repetition e)

/-- The second tree is the first one with a redundant extent replaced, at some place of it. -/
inductive Simplifies : Extent → Extent → Prop where
  | here {e e' : Extent} (h : Redundant e e') : Simplifies e e'
  | part (front back : List Extent) {e e' : Extent} (h : Simplifies e e') :
    Simplifies (concatenation (front ++ e :: back)) (concatenation (front ++ e' :: back))
  | alternative (front back : List Extent) {e e' : Extent} (h : Simplifies e e') :
    Simplifies (union (front ++ e :: back)) (union (front ++ e' :: back))
  | body {e e' : Extent} (h : Simplifies e e') : Simplifies (repetition e) (repetition e')

/-- Wherever they stand, one can be replaced by the other. -/
structure Interchangeable (e e' : Extent) : Prop where
  composite : e.isLeaf = false
  composite' : e'.isLeaf = false
  leafCount : e.leafCount = e'.leafCount
  wire : ∀ (n : Nat) (S R : List StateId), S.Nodup → e.wire n S R = e'.wire n S R

variable {e e' : Extent}

theorem filledAll_append : ∀ {front back : List Extent},
    FilledAll (front ++ back) ↔ FilledAll front ∧ FilledAll back
  | [], back => (and_iff_right trivial).symm
  | e :: others, back => by
    rw [List.cons_append, FilledAll, FilledAll, filledAll_append, and_assoc]

/-! ## Each case by itself -/

/-- Parts that follow one another may be wired as one. -/
theorem wireParts_concatenation (parts back : List Extent) (n : Nat) (S R : List StateId) :
    wireParts (concatenation parts :: back) n S R = wireParts (parts ++ back) n S R := by
  cases back with
  | nil => rw [List.append_nil]; rfl
  | cons second others =>
    rw [wireParts_cons (List.cons_ne_nil _ _), wireParts_append (List.cons_ne_nil _ _)]
    rfl

theorem Redundant.interchangeable (h : Redundant e e') (hfilled : e.Filled) :
    Interchangeable e e' := by
  cases h with
  | nestedConcatenation front parts back =>
    have hparts : parts ≠ [] := (filledAll_append.mp hfilled.2).2.1.1
    have hback : parts ++ back ≠ [] := List.append_ne_nil_of_left_ne_nil hparts back
    refine ⟨rfl, rfl, ?_, fun n S R _ => ?_⟩
    · simp only [leafCount, leafCountAll_append, leafCountAll]
    · rw [wire, wire, wireParts_append (List.cons_ne_nil _ _), wireParts_append hback]
      congr 1
      funext exits
      exact wireParts_concatenation parts back _ exits R
  | nestedUnion front alternatives back =>
    refine ⟨rfl, rfl, ?_, fun n S R _ => ?_⟩
    · simp only [leafCount, leafCountAll_append, leafCountAll]
    · rw [wire_union, wire_union, wireAlternatives_append, wireAlternatives_append,
        wireAlternatives_append, wireAlternatives_cons, wire_union, Wiring.union_beside_union]
      rfl
  | onePart hleaf => exact ⟨rfl, hleaf, Nat.add_zero _, fun _ _ _ _ => rfl⟩
  | oneAlternative hleaf =>
    refine ⟨rfl, hleaf, Nat.add_zero _, fun n S R hS => ?_⟩
    have hdistinct := distinct_of_nodup (nodup_exits_wire e' n S R hS)
    rw [wire_union, wireAlternatives, wireAlternatives]
    simp [Wiring.union, hdistinct]
  | repeatedTwice hleaf =>
    refine ⟨rfl, rfl, rfl, fun n S R _ => ?_⟩
    rw [wire_repetition rfl, wire_repetition hleaf, wire_repetition hleaf, merge_merge, merge_merge]

/-! ## Anywhere in a tree -/

namespace Interchangeable

theorem part (h : Interchangeable e e') (front back : List Extent) :
    Interchangeable (concatenation (front ++ e :: back)) (concatenation (front ++ e' :: back)) := by
  have hparts : ∀ (n : Nat) (S R : List StateId), S.Nodup →
      wireParts (e :: back) n S R = wireParts (e' :: back) n S R := by
    intro n S R hS
    cases back with
    | nil => exact h.wire n S R hS
    | cons second others =>
      rw [wireParts_cons (List.cons_ne_nil _ _), wireParts_cons (List.cons_ne_nil _ _),
        h.wire n S [] hS, h.leafCount]
  refine ⟨rfl, rfl, ?_, fun n S R hS => ?_⟩
  · simp only [Extent.leafCount, leafCountAll_append, leafCountAll, h.leafCount]
  · have hexits := nodup_exits_wireParts front n S [] hS
    rw [Extent.wire, Extent.wire, wireParts_append (List.cons_ne_nil _ _),
      wireParts_append (List.cons_ne_nil _ _), Wiring.andThen, Wiring.andThen, hparts _ _ _ hexits]

theorem alternative (h : Interchangeable e e') (front back : List Extent) :
    Interchangeable (union (front ++ e :: back)) (union (front ++ e' :: back)) := by
  refine ⟨rfl, rfl, ?_, fun n S R hS => ?_⟩
  · simp only [Extent.leafCount, leafCountAll_append, leafCountAll, h.leafCount]
  · rw [wire_union, wire_union, wireAlternatives_append, wireAlternatives_append,
      wireAlternatives_cons, wireAlternatives_cons, h.wire _ S R hS, h.leafCount]

theorem body (h : Interchangeable e e') : Interchangeable (repetition e) (repetition e') := by
  refine ⟨rfl, rfl, h.leafCount, fun n S R hS => ?_⟩
  rw [wire_repetition h.composite, wire_repetition h.composite', h.wire n S _ hS]

/-- The start state alone is distinct. -/
theorem ofExtent_eq (h : Interchangeable e e') : Automaton.ofExtent e = Automaton.ofExtent e' := by
  have hwire := h.wire 1 [0] [] (List.nodup_singleton 0)
  rw [Automaton.ofExtent, Automaton.ofExtent, wiring, wiring, hwire, h.leafCount]

end Interchangeable

theorem Simplifies.interchangeable (h : Simplifies e e') (hfilled : e.Filled) :
    Interchangeable e e' := by
  induction h with
  | here h => exact h.interchangeable hfilled
  | part front back _ ih => exact (ih (filledAll_append.mp hfilled.2).2.1).part front back
  | alternative front back _ ih =>
    exact (ih (filledAll_append.mp hfilled).2.1).alternative front back
  | body _ ih => exact (ih hfilled).body

/-- No concatenation is emptied. -/
theorem Simplifies.filled (h : Simplifies e e') (hfilled : e.Filled) : e'.Filled := by
  induction h with
  | here h =>
    cases h with
    | nestedConcatenation front parts back =>
      obtain ⟨hfront, ⟨hne, hparts⟩, hback⟩ := filledAll_append.mp hfilled.2
      refine ⟨?_, filledAll_append.mpr ⟨hfront, filledAll_append.mpr ⟨hparts, hback⟩⟩⟩
      simp [hne]
    | nestedUnion front alternatives back =>
      obtain ⟨hfront, halternatives, hback⟩ := filledAll_append.mp hfilled
      exact filledAll_append.mpr ⟨hfront, filledAll_append.mpr ⟨halternatives, hback⟩⟩
    | onePart _ => exact hfilled.2.1
    | oneAlternative _ => exact hfilled.1
    | repeatedTwice _ => exact hfilled
  | part front back _ ih =>
    obtain ⟨hfront, he, hback⟩ := filledAll_append.mp hfilled.2
    exact ⟨by simp, filledAll_append.mpr ⟨hfront, ih he, hback⟩⟩
  | alternative front back _ ih =>
    obtain ⟨hfront, he, hback⟩ := filledAll_append.mp hfilled
    exact filledAll_append.mpr ⟨hfront, ih he, hback⟩
  | body _ ih => exact ih hfilled

/-- **Simplifying a tree, once or many times, leaves its automaton as it is.** -/
theorem ofExtent_eq_of_simplifies (hfilled : e.Filled) (h : Relation.ReflTransGen Simplifies e e') :
    Automaton.ofExtent e = Automaton.ofExtent e' := by
  have hboth : e'.Filled ∧ Automaton.ofExtent e = Automaton.ofExtent e' := by
    induction h with
    | refl => exact ⟨hfilled, rfl⟩
    | tail _ hstep ih =>
      obtain ⟨hmiddle, hsame⟩ := ih
      exact ⟨hstep.filled hmiddle, hsame.trans (hstep.interchangeable hmiddle).ofExtent_eq⟩
  exact hboth.2

end Extent

end CaretAutomata

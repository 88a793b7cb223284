import CaretAutomata.Proofs.Automaton.Additions
import CaretAutomata.Proofs.Automaton.Direction

/-!
# Building an automaton in two passes

`Extent.wire` counts leaves to know their states. The automaton of a tree can also be built without
counting, in two passes over the tree. The first one (`Automaton.enrich?`) adds a state for each
leaf and notes it in a layout, which has the shape of the tree; the second one (`Automaton.wire?`)
goes through the tree and the layout together, takes the states from the layout, and adds the edges.

The passes rely on each other: the second one takes the next state or the next inner layout from
what the first one left, and neither has a place for a leaf as an alternative. Where such a thing
fails there is no result. This file defines the passes and shows what the first one leaves:
`enrich?_eq` for the whole, `mirrors_layoutAt` for its shape.
-/

namespace CaretAutomata

open Arrival (merge)
open Extent (enter loopBack)

/-- The states of an extent: those of the leaves among its children, and a layout for each of its
other children, both in the order of the children. -/
structure StateLayout where
  states : List StateId
  nested : List StateLayout

namespace StateLayout

/-- A state is noted in a layout, or in one inside it. -/
inductive Owns : StateLayout → StateId → Prop
  | here {layout : StateLayout} {id : StateId} (h : id ∈ layout.states) : Owns layout id
  | inside {layout inner : StateLayout} {id : StateId} (h : inner ∈ layout.nested)
    (hinner : Owns inner id) : Owns layout id

end StateLayout

namespace Extent

def children : Extent → List Extent
  | leaf _ => []
  | concatenation parts => parts
  | union alternatives => alternatives
  | repetition body => [body]

/-- The extent was put together from characters: it is none itself, and no alternative is one. -/
inductive Assembled : Extent → Prop
  | concatenation {parts : List Extent}
    (h : ∀ part ∈ parts, part.isLeaf = false → Assembled part) : Assembled (concatenation parts)
  | union {alternatives : List Extent} (h : ∀ alternative ∈ alternatives, Assembled alternative) :
    Assembled (union alternatives)
  | repetition {body : Extent} (h : body.isLeaf = false → Assembled body) :
    Assembled (repetition body)

end Extent

/-- A layout has the shape of an extent: a state for each leaf among the children, and for each
other child a layout of its shape. -/
inductive StateLayout.Mirrors : StateLayout → Extent → Prop
  | intro {layout : StateLayout} {e : Extent}
    (states : layout.states.length = (e.children.filter Extent.isLeaf).length)
    (nested : List.Forall₂ Mirrors layout.nested (e.children.filter (!·.isLeaf))) :
    Mirrors layout e

/-- An extent stands somewhere in another one, and its layout at the same place in the layout of the
other one. -/
inductive Extent.HasPart : Extent → StateLayout → Extent → StateLayout → Prop
  | whole {e : Extent} {layout : StateLayout} : HasPart e layout e layout
  | inside {e child part : Extent} {layout inner own : StateLayout}
    (h : (child, inner) ∈ (e.children.filter (!·.isLeaf)).zip layout.nested)
    (hpart : HasPart child inner part own) : HasPart e layout part own

namespace Automaton

/-! ## The passes -/

/-- Adds a state, named after its position. -/
def allocate (a : Automaton) : Automaton := ⟨a.states.push { label := defaultLabel a.size }⟩

mutual

/-- Adds a state for every leaf, from left to right. -/
def enrich? : Automaton → Extent → Option (StateLayout × Automaton)
  | _, .leaf _ => none
  | a, .concatenation parts => a.enrichParts? parts
  | a, .union alternatives => a.enrichAlternatives? alternatives
  | a, .repetition (.leaf _) => some (⟨[a.size], []⟩, a.allocate)
  | a, .repetition body => do
    let (inner, a) ← a.enrich? body
    return (⟨[], [inner]⟩, a)

def enrichParts? : Automaton → List Extent → Option (StateLayout × Automaton)
  | a, [] => some (⟨[], []⟩, a)
  | a, .leaf _ :: others => do
    let (layout, grown) ← a.allocate.enrichParts? others
    return (⟨a.size :: layout.states, layout.nested⟩, grown)
  | a, part :: others => do
    let (inner, a) ← a.enrich? part
    let (layout, a) ← a.enrichParts? others
    return (⟨layout.states, inner :: layout.nested⟩, a)

/-- No alternative is a leaf. -/
def enrichAlternatives? : Automaton → List Extent → Option (StateLayout × Automaton)
  | a, [] => some (⟨[], []⟩, a)
  | _, .leaf _ :: _ => none
  | a, alternative :: others => do
    let (inner, a) ← a.enrich? alternative
    let (layout, a) ← a.enrichAlternatives? others
    return (⟨layout.states, inner :: layout.nested⟩, a)

end

mutual

/-- Wires an extent with the states of its layout, and gives its exits. -/
def wire? : Automaton → Extent → StateLayout → (starters : List StateId) →
    (repeaters : Option (List StateId)) → Option (List StateId × Automaton)
  | _, .leaf _, _, _, _ => none
  | a, .concatenation parts, layout, starters, repeaters =>
    a.wireParts? parts layout.states layout.nested starters repeaters
  | a, .union alternatives, layout, starters, repeaters =>
    a.wireAlternatives? alternatives layout.nested [] starters repeaters
  | a, .repetition (.leaf c), layout, starters, repeaters => do
    let state ← layout.states.head?
    let a ← a.addAll? (enter starters c state)
    let a ← a.addAll? [⟨state, .char c, state⟩]
    let a ← a.addAll? (loopBack state (repeaters.getD []))
    return (merge [state] starters, a)
  | a, .repetition body, layout, starters, repeaters => do
    let inner ← layout.nested.head?
    let (exits, a) ← a.wire? body inner starters (some (merge (repeaters.getD []) starters))
    return (merge exits starters, a)

/-- Wires parts one behind the other, each from the exits of the one in front of it. -/
def wireParts? : Automaton → List Extent → (states : List StateId) → (nested : List StateLayout) →
    (current : List StateId) → (repeaters : Option (List StateId)) →
    Option (List StateId × Automaton)
  | a, [], _, _, current, _ => some (current, a)
  | a, .leaf c :: others, states, nested, current, repeaters => do
    let state ← states.head?
    let a ← a.addAll? (enter current c state)
    let a ← if others.isEmpty then a.addAll? (loopBack state (repeaters.getD [])) else some a
    a.wireParts? others states.tail nested [state] repeaters
  | a, part :: others, states, nested, current, repeaters => do
    let inner ← nested.head?
    let (exits, a) ← a.wire? part inner current (if others.isEmpty then repeaters else none)
    a.wireParts? others states nested.tail exits repeaters

/-- Wires alternatives between the same states; `exits` are those of the ones in front. -/
def wireAlternatives? : Automaton → List Extent → (nested : List StateLayout) →
    (exits starters : List StateId) → (repeaters : Option (List StateId)) →
    Option (List StateId × Automaton)
  | a, [], _, exits, _, _ => some (exits, a)
  | _, .leaf _ :: _, _, _, _, _ => none
  | a, alternative :: others, nested, exits, starters, repeaters => do
    let inner ← nested.head?
    let (found, a) ← a.wire? alternative inner starters repeaters
    a.wireAlternatives? others nested.tail (merge exits found) starters repeaters

end

/-- Both passes, from the start state alone, with the exits in the end. -/
def construct? (e : Extent) : Option (List StateId × Automaton) := do
  let (layout, a) ← single.enrich? e
  a.wire? e layout [0] none

end Automaton

/-! ## What the first pass leaves -/

namespace Extent

mutual

/-- The layout of an extent whose first leaf has the state `next`. -/
def layoutAt : Extent → (next : Nat) → StateLayout
  | leaf _, next => ⟨[next], []⟩
  | concatenation parts, next => layoutAll parts next
  | union alternatives, next => layoutAll alternatives next
  | repetition body, next => if body.isLeaf then ⟨[next], []⟩ else ⟨[], [body.layoutAt next]⟩

def layoutAll : List Extent → (next : Nat) → StateLayout
  | [], _ => ⟨[], []⟩
  | e :: others, next =>
    let rest := layoutAll others (next + e.leafCount)
    if e.isLeaf then ⟨next :: rest.states, rest.nested⟩
    else ⟨rest.states, e.layoutAt next :: rest.nested⟩

end

theorem layoutAll_leaf (c : Char) (others : List Extent) (n : Nat) :
    layoutAll (leaf c :: others) n =
      ⟨n :: (layoutAll others (n + 1)).states, (layoutAll others (n + 1)).nested⟩ := by
  rw [layoutAll]
  exact if_pos rfl

theorem layoutAll_cons {e : Extent} (h : e.isLeaf = false) (others : List Extent) (n : Nat) :
    layoutAll (e :: others) n =
      ⟨(layoutAll others (n + e.leafCount)).states,
        e.layoutAt n :: (layoutAll others (n + e.leafCount)).nested⟩ := by
  rw [layoutAll]
  exact if_neg (by rw [h]; exact Bool.false_ne_true)

/-- The layout of an extent is that of its children. -/
theorem layoutAt_eq {e : Extent} (h : e.isLeaf = false) (n : Nat) :
    e.layoutAt n = layoutAll e.children n := by
  cases e with
  | leaf c => exact absurd h (by simp [isLeaf])
  | concatenation parts => rfl
  | union alternatives => rfl
  | repetition body =>
    rw [layoutAt, children]
    cases hleaf : body.isLeaf with
    | true =>
      obtain ⟨c, rfl⟩ := exists_leaf_of_isLeaf hleaf
      rw [layoutAll_leaf]
      rfl
    | false =>
      rw [layoutAll_cons hleaf]
      rfl

theorem leafCount_eq {e : Extent} (h : e.isLeaf = false) :
    e.leafCount = leafCountAll e.children := by
  cases e with
  | leaf c => exact absurd h (by simp [isLeaf])
  | concatenation parts => rfl
  | union alternatives => rfl
  | repetition body => rfl

/-! ### The shape of the layout -/

theorem length_states_layoutAll (es : List Extent) (n : Nat) :
    (layoutAll es n).states.length = (es.filter isLeaf).length := by
  induction es generalizing n with
  | nil => rfl
  | cons e others ih =>
    rw [layoutAll]
    cases hleaf : e.isLeaf <;> simp [hleaf, ih]

mutual

theorem mirrors_layoutAt : ∀ (e : Extent) (n : Nat), e.isLeaf = false →
    (e.layoutAt n).Mirrors e
  | leaf c, n, h => absurd h (by simp [isLeaf])
  | concatenation parts, n, _ =>
    .intro (length_states_layoutAll parts n) (mirrors_layoutAll parts n)
  | union alternatives, n, _ =>
    .intro (length_states_layoutAll alternatives n) (mirrors_layoutAll alternatives n)
  | repetition body, n, _ => by
    have hbody := mirrors_layoutAt body n
    rw [layoutAt]
    constructor
    · cases hleaf : body.isLeaf <;> simp [children, hleaf]
    · cases hleaf : body.isLeaf with
      | true => simp [children, hleaf]
      | false => simpa [children, hleaf] using hbody hleaf

theorem mirrors_layoutAll : ∀ (es : List Extent) (n : Nat),
    List.Forall₂ StateLayout.Mirrors (layoutAll es n).nested (es.filter (!·.isLeaf))
  | [], n => .nil
  | e :: others, n => by
    have hothers := mirrors_layoutAll others (n + e.leafCount)
    have hfirst := mirrors_layoutAt e n
    rw [layoutAll]
    cases hleaf : e.isLeaf with
    | true => simpa [hleaf] using hothers
    | false => simpa [hleaf] using ⟨hfirst hleaf, hothers⟩

end

/-! ### The states in the layout -/

end Extent

namespace StateLayout

theorem owns_cons_state {state id : Nat} {layout : StateLayout} :
    (mk (state :: layout.states) layout.nested).Owns id ↔ id = state ∨ layout.Owns id := by
  constructor
  · intro h
    cases h with
    | here h => exact (List.mem_cons.mp h).imp_right .here
    | inside h hinner => exact .inr (.inside h hinner)
  · rintro (rfl | h)
    · exact .here (.head _)
    · cases h with
      | here h => exact .here (.tail _ h)
      | inside h hinner => exact .inside h hinner

theorem owns_cons_nested {id : Nat} {inner layout : StateLayout} :
    (mk layout.states (inner :: layout.nested)).Owns id ↔ inner.Owns id ∨ layout.Owns id := by
  constructor
  · intro h
    cases h with
    | here h => exact .inr (.here h)
    | inside h hinner =>
      rcases List.mem_cons.mp h with rfl | h
      · exact .inl hinner
      · exact .inr (.inside h hinner)
  · rintro (h | h)
    · exact .inside (.head _) h
    · cases h with
      | here h => exact .here h
      | inside h hinner => exact .inside (.tail _ h) hinner

theorem not_owns_nil {id : StateId} : ¬ (mk [] []).Owns id := by
  intro h
  cases h with
  | here h => exact absurd h List.not_mem_nil
  | inside h => exact absurd h List.not_mem_nil

end StateLayout

namespace Extent

open StateLayout

mutual

/-- **The states in a layout are those of its leaves**, counted from the first one. -/
theorem owns_layoutAt : ∀ (e : Extent) (n id : Nat),
    (e.layoutAt n).Owns id ↔ n ≤ id ∧ id < n + e.leafCount
  | leaf c, n, id => by
    have hstate := @owns_cons_state n id ⟨[], []⟩
    rw [layoutAt, hstate, leafCount]
    simp only [not_owns_nil, or_false]
    omega
  | concatenation parts, n, id => owns_layoutAll parts n id
  | union alternatives, n, id => owns_layoutAll alternatives n id
  | repetition body, n, id => by
    have hbody := owns_layoutAt body n id
    rw [layoutAt, leafCount]
    cases hleaf : body.isLeaf with
    | true =>
      obtain ⟨c, rfl⟩ := exists_leaf_of_isLeaf hleaf
      exact hbody
    | false =>
      have hinner := @owns_cons_nested id (body.layoutAt n) ⟨[], []⟩
      rw [if_neg Bool.false_ne_true, hinner, hbody]
      simp only [not_owns_nil, or_false]

theorem owns_layoutAll : ∀ (es : List Extent) (n id : Nat),
    (layoutAll es n).Owns id ↔ n ≤ id ∧ id < n + leafCountAll es
  | [], n, id => by
    rw [layoutAll, leafCountAll]
    simp only [not_owns_nil, false_iff]
    omega
  | e :: others, n, id => by
    have hothers := owns_layoutAll others (n + e.leafCount) id
    have hfirst := owns_layoutAt e n id
    rw [leafCountAll]
    cases hleaf : e.isLeaf with
    | true =>
      obtain ⟨c, rfl⟩ := exists_leaf_of_isLeaf hleaf
      rw [leafCount] at hothers ⊢
      rw [layoutAll_leaf, owns_cons_state, hothers]
      omega
    | false =>
      rw [layoutAll_cons hleaf, owns_cons_nested, hfirst, hothers]
      omega

end

/-! ### Layouts inside the layout -/

theorem Assembled.isLeaf {e : Extent} (h : e.Assembled) : e.isLeaf = false := by
  cases h <;> rfl

theorem Assembled.child {e child : Extent} (h : e.Assembled) (hmem : child ∈ e.children)
    (hleaf : child.isLeaf = false) : child.Assembled := by
  cases h with
  | concatenation h => exact h child hmem hleaf
  | union h => exact h child hmem
  | repetition h =>
    obtain rfl := List.mem_singleton.mp hmem
    exact h hleaf

/-- The layouts of the children are laid out one behind the other. -/
theorem exists_of_mem_zip : ∀ {es : List Extent} {n : Nat} {child : Extent}
    {inner : StateLayout}, (child, inner) ∈ (es.filter (!·.isLeaf)).zip (layoutAll es n).nested →
    (child ∈ es ∧ child.isLeaf = false) ∧ ∃ m, inner = child.layoutAt m ∧ n ≤ m ∧
      m + child.leafCount ≤ n + leafCountAll es
  | [], n, child, inner, h => absurd h List.not_mem_nil
  | e :: others, n, child, inner, h => by
    rw [leafCountAll]
    cases hleaf : e.isLeaf with
    | true =>
      obtain ⟨c, rfl⟩ := exists_leaf_of_isLeaf hleaf
      rw [layoutAll_leaf, List.filter_cons_of_neg (by simp [hleaf])] at h
      obtain ⟨⟨hmem, hnot⟩, m, hinner, hn, hm⟩ := exists_of_mem_zip h
      rw [leafCount]
      exact ⟨⟨.tail _ hmem, hnot⟩, m, hinner, by omega, by omega⟩
    | false =>
      rw [layoutAll_cons hleaf, List.filter_cons_of_pos (by simp [hleaf]), List.zip_cons_cons] at h
      rcases List.mem_cons.mp h with h | h
      · obtain ⟨rfl, rfl⟩ := Prod.mk.inj h
        exact ⟨⟨.head _, hleaf⟩, n, rfl, Nat.le_refl _, by omega⟩
      · obtain ⟨⟨hmem, hnot⟩, m, hinner, hn, hm⟩ := exists_of_mem_zip h
        exact ⟨⟨.tail _ hmem, hnot⟩, m, hinner, by omega, by omega⟩

/-- A part of an extent has its layout where the first pass would lay it out. -/
theorem HasPart.layoutAt {e part : Extent} {layout own : StateLayout}
    (h : HasPart e layout part own) : ∀ {n : Nat}, e.Assembled → layout = e.layoutAt n →
    part.Assembled ∧ ∃ m, own = part.layoutAt m ∧ n ≤ m ∧
      m + part.leafCount ≤ n + e.leafCount := by
  induction h with
  | whole => exact fun he heq => ⟨he, _, heq, Nat.le_refl _, Nat.le_refl _⟩
  | inside h _ ih =>
    intro n he heq
    rw [heq, layoutAt_eq he.isLeaf] at h
    obtain ⟨⟨hmem, hleaf⟩, m, hinner, hn, hm⟩ := exists_of_mem_zip h
    obtain ⟨hpart, k, hown, hk, hle⟩ := ih (he.child hmem hleaf) hinner
    rw [leafCount_eq he.isLeaf]
    exact ⟨hpart, k, hown, by omega, by omega⟩

end Extent

namespace Automaton

/-- Adds states, one after the other. -/
def grow (a : Automaton) : (count : Nat) → Automaton
  | 0 => a
  | count + 1 => a.allocate.grow count

@[simp]
theorem size_allocate (a : Automaton) : a.allocate.size = a.size + 1 := Array.size_push ..

@[simp]
theorem size_grow (a : Automaton) (count : Nat) : (a.grow count).size = a.size + count := by
  induction count generalizing a with
  | zero => rfl
  | succ count ih =>
    rw [grow, ih, size_allocate]
    omega

theorem grow_grow (a : Automaton) (m n : Nat) : (a.grow m).grow n = a.grow (m + n) := by
  induction m generalizing a with
  | zero => rw [Nat.zero_add, grow]
  | succ m ih => rw [grow, ih, Nat.add_right_comm, grow]

/-- The states that were there stay, and each new one is named after its position. -/
theorem getElem?_grow (a : Automaton) (count : Nat) (id : Nat) :
    (a.grow count).states[id]? =
      if id < a.size then a.states[id]?
      else if id < a.size + count then some { label := defaultLabel id } else none := by
  induction count generalizing a with
  | zero =>
    split
    · rfl
    · next h => exact (Array.getElem?_eq_none (Nat.not_lt.mp h)).trans (if_neg h).symm
  | succ count ih =>
    rw [grow, ih, size_allocate, allocate, Array.getElem?_push]
    by_cases hnew : id = a.size
    · subst hnew
      simp [size]
    · have hlt : id < a.size + 1 ↔ id < a.size :=
        ⟨fun h => Nat.lt_of_le_of_ne (Nat.le_of_lt_succ h) hnew, Nat.lt_succ_of_lt⟩
      rw [show (if id = a.states.size then _ else a.states[id]?) = a.states[id]? from if_neg hnew,
        Nat.add_right_comm, Nat.add_assoc]
      simp only [hlt]

theorem blank_allocate (count : Nat) : (blank count).allocate = blank (count + 1) := by
  refine congrArg Automaton.mk (Array.ext_getElem? fun id => ?_)
  rw [Array.getElem?_push]
  by_cases hnew : id = count
  · subst hnew
    simp [blank, size]
  · have hlt : id < count + 1 ↔ id < count := by omega
    simp [blank, hnew, Array.getElem?_ofFn, hlt]

theorem blank_grow (m n : Nat) : (blank m).grow n = blank (m + n) := by
  induction n generalizing m with
  | zero => rfl
  | succ n ih => rw [grow, blank_allocate, ih, Nat.add_right_comm, Nat.add_assoc]

section Enrichment

variable {part : Extent} {others : List Extent}

theorem enrich?_repetition (a : Automaton) {body : Extent} (h : body.isLeaf = false) :
    a.enrich? (.repetition body) = (a.enrich? body).bind fun inner =>
      some (⟨[], [inner.1]⟩, inner.2) := by
  cases body with
  | leaf c => exact absurd h (by simp [Extent.isLeaf])
  | concatenation parts => rfl
  | union alternatives => rfl
  | repetition body => rfl

theorem enrichParts?_cons (a : Automaton) (h : part.isLeaf = false) (others : List Extent) :
    a.enrichParts? (part :: others) = (a.enrich? part).bind fun inner =>
      (inner.2.enrichParts? others).bind fun behind =>
        some (⟨behind.1.states, inner.1 :: behind.1.nested⟩, behind.2) := by
  cases part with
  | leaf c => exact absurd h (by simp [Extent.isLeaf])
  | concatenation parts => rfl
  | union alternatives => rfl
  | repetition body => rfl

theorem enrichAlternatives?_eq : ∀ (a : Automaton) {es : List Extent},
    (∀ e ∈ es, e.isLeaf = false) → a.enrichAlternatives? es = a.enrichParts? es
  | a, [], _ => rfl
  | a, e :: others, h => by
    have hothers : ∀ b : Automaton, b.enrichAlternatives? others = b.enrichParts? others :=
      fun b => enrichAlternatives?_eq b fun other hother => h other (.tail _ hother)
    rw [enrichParts?_cons a (h e (.head _))]
    simp only [← hothers]
    cases e with
    | leaf c => exact absurd (h _ (.head _)) (by simp [Extent.isLeaf])
    | concatenation parts => rfl
    | union alternatives => rfl
    | repetition body => rfl

mutual

/-- **The first pass never fails.** It adds a state for each leaf behind those that are there, and
notes them in order. -/
theorem enrich?_eq : ∀ (a : Automaton) {e : Extent}, e.Assembled →
    a.enrich? e = some (e.layoutAt a.size, a.grow e.leafCount)
  | a, .leaf _, h => nomatch h
  | a, .concatenation parts, .concatenation h => enrichParts?_eq a h
  | a, .union alternatives, .union h => by
    rw [enrich?, enrichAlternatives?_eq a fun e he => (h e he).isLeaf]
    exact enrichParts?_eq a fun e he _ => h e he
  | a, .repetition body, .repetition h => by
    cases hleaf : body.isLeaf with
    | true =>
      obtain ⟨c, rfl⟩ := Extent.exists_leaf_of_isLeaf hleaf
      rfl
    | false =>
      have hbody := enrich?_eq a (h hleaf)
      rw [enrich?_repetition a hleaf, hbody, Extent.layoutAt, hleaf]
      rfl

theorem enrichParts?_eq : ∀ (a : Automaton) {es : List Extent},
    (∀ e ∈ es, e.isLeaf = false → e.Assembled) →
    a.enrichParts? es = some (Extent.layoutAll es a.size, a.grow (Extent.leafCountAll es))
  | a, [], _ => rfl
  | a, e :: others, h => by
    cases hleaf : e.isLeaf with
    | true =>
      obtain ⟨c, rfl⟩ := Extent.exists_leaf_of_isLeaf hleaf
      have hothers := enrichParts?_eq a.allocate fun e he => h e (.tail _ he)
      have hgrow : a.grow (Extent.leafCountAll (.leaf c :: others)) =
          a.allocate.grow (Extent.leafCountAll others) := by
        rw [Extent.leafCountAll, Extent.leafCount, Nat.add_comm, grow]
      rw [size_allocate] at hothers
      rw [enrichParts?, hothers, Extent.layoutAll_leaf, hgrow]
      rfl
    | false =>
      have hfirst := enrich?_eq a (h e (.head _) hleaf)
      have hothers := enrichParts?_eq (a.grow e.leafCount) fun e he => h e (.tail _ he)
      rw [size_grow] at hothers
      rw [enrichParts?_cons a hleaf, hfirst, Extent.layoutAll_cons hleaf, Extent.leafCountAll,
        ← grow_grow]
      simp [hothers]

end

end Enrichment

end Automaton

end CaretAutomata

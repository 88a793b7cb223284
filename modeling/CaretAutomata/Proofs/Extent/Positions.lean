import Mathlib.Data.List.ProdSigma
import CaretAutomata.Extent.Spelling
import CaretAutomata.Proofs.Extent.Language

/-!
# First, last and following leaves

Which leaf can start a word of a tree, which can end one, and which can stand behind which: the
words of a tree are fixed by these three and by whether the empty word is one of them. `Positions`
holds them, `Extent.positions` finds them, and **`accepts_iff_mem_traces`** is the theorem that
makes them worth having — a sequence of leaves is a trace exactly when it starts with a first leaf,
goes on from leaf to leaf as `Links` allows, and ends with a last one.

The pairs are kept in two lists. `follow` holds what the parts of a concatenation and the loop of a
repeated character give, `rounds` what the repetition of anything larger gives: from the last leaves
of its body back to the first ones. The automaton has an edge on a character for each of the former
and none for the latter, so the two must not be mixed up.
-/

namespace CaretAutomata

/-- The leaves that can stand first, last and one behind the other in a word. -/
structure Positions where
  nullable : Bool
  first : List Nat
  last : List Nat
  follow : List (Nat × Nat)
  rounds : List (Nat × Nat)
  deriving DecidableEq, Repr

namespace Positions

/-! ## The operations of a tree -/

def single (n : Nat) : Positions := ⟨false, [n], [n], [], []⟩

/-- The empty word alone. -/
def skip : Positions := ⟨true, [], [], [], []⟩

/-- No word at all. -/
def never : Positions := ⟨false, [], [], [], []⟩

/-- What `P` stands for, then what `Q` stands for. -/
def before (P Q : Positions) : Positions where
  nullable := P.nullable && Q.nullable
  first := P.first ++ if P.nullable then Q.first else []
  last := Q.last ++ if Q.nullable then P.last else []
  follow := P.follow ++ Q.follow ++ P.last ×ˢ Q.first
  rounds := P.rounds ++ Q.rounds

/-- What either of the two stands for. -/
def either (P Q : Positions) : Positions where
  nullable := P.nullable || Q.nullable
  first := P.first ++ Q.first
  last := P.last ++ Q.last
  follow := P.follow ++ Q.follow
  rounds := P.rounds ++ Q.rounds

/-- What `P` stands for, any number of times, going on as within `P`. -/
def loop (P : Positions) : Positions :=
  { P with nullable := true, follow := P.follow ++ P.last ×ˢ P.first }

/-- What `P` stands for, any number of times, each of them a new round. -/
def again (P : Positions) : Positions :=
  { P with nullable := true, rounds := P.rounds ++ P.last ×ˢ P.first }

/-! ## Words -/

variable {P Q : Positions} {N N' : Nat → Nat → Prop}

/-- A leaf follows another without a new round. -/
def Follows (P : Positions) (x y : Nat) : Prop := (x, y) ∈ P.follow

/-- A leaf can stand behind another, in the same round or in the next. -/
def Links (P : Positions) (x y : Nat) : Prop := (x, y) ∈ P.follow ∨ (x, y) ∈ P.rounds

/-- From `x` the word goes on to a last leaf, by steps of `N`. -/
def Ends (P : Positions) (N : Nat → Nat → Prop) : Nat → List Nat → Prop
  | x, [] => x ∈ P.last
  | x, y :: w => N x y ∧ P.Ends N y w

/-- The word starts with a first leaf and goes on to a last one by steps of `N`. -/
def Accepts (P : Positions) (N : Nat → Nat → Prop) : List Nat → Prop
  | [] => P.nullable = true
  | x :: w => x ∈ P.first ∧ P.Ends N x w

theorem Ends.mono (hN : ∀ x y, N x y → N' x y) (hlast : ∀ x ∈ P.last, x ∈ Q.last) :
    ∀ {w : List Nat} {x : Nat}, P.Ends N x w → Q.Ends N' x w
  | [], x, h => hlast x h
  | _ :: _, _, h => ⟨hN _ _ h.1, h.2.mono hN hlast⟩

theorem Accepts.mono (hN : ∀ x y, N x y → N' x y) (hnull : P.nullable = true → Q.nullable = true)
    (hfirst : ∀ x ∈ P.first, x ∈ Q.first) (hlast : ∀ x ∈ P.last, x ∈ Q.last) :
    ∀ {w : List Nat}, P.Accepts N w → Q.Accepts N' w
  | [], h => hnull h
  | x :: _, h => ⟨hfirst x h.1, h.2.mono hN hlast⟩

theorem Accepts.relax (hN : ∀ x y, N x y → N' x y) {w : List Nat} (h : P.Accepts N w) :
    P.Accepts N' w :=
  h.mono hN (fun hnull => hnull) (fun _ hx => hx) fun _ hx => hx

/-! ### Membership -/

theorem mem_first_before {x : Nat} :
    x ∈ (P.before Q).first ↔ x ∈ P.first ∨ P.nullable = true ∧ x ∈ Q.first := by
  unfold before
  by_cases h : P.nullable = true <;> simp [h]

theorem mem_last_before {x : Nat} :
    x ∈ (P.before Q).last ↔ x ∈ Q.last ∨ Q.nullable = true ∧ x ∈ P.last := by
  unfold before
  by_cases h : Q.nullable = true <;> simp [h]

theorem nullable_before : (P.before Q).nullable = true ↔ P.nullable = true ∧ Q.nullable = true := by
  simp [before]

theorem mem_follow_before {x y : Nat} : (x, y) ∈ (P.before Q).follow ↔
    (x, y) ∈ P.follow ∨ (x, y) ∈ Q.follow ∨ x ∈ P.last ∧ y ∈ Q.first := by
  simp [before]

theorem links_before {x y : Nat} : (P.before Q).Links x y ↔
    P.Links x y ∨ Q.Links x y ∨ x ∈ P.last ∧ y ∈ Q.first := by
  unfold Links
  rw [mem_follow_before]
  simp only [before, List.mem_append]
  tauto

theorem links_either {x y : Nat} : (P.either Q).Links x y ↔ P.Links x y ∨ Q.Links x y := by
  simp only [Links, either, List.mem_append]
  tauto

theorem links_again {x y : Nat} : P.again.Links x y ↔ P.Links x y ∨ x ∈ P.last ∧ y ∈ P.first := by
  simp [Links, again, or_assoc]

theorem links_loop {x y : Nat} : P.loop.Links x y ↔ P.Links x y ∨ x ∈ P.last ∧ y ∈ P.first := by
  simp only [Links, loop, List.mem_append, List.mem_product]
  tauto

/-! ### Putting words together -/

theorem Ends.before {u v : List Nat} {x : Nat} (h : P.Ends N x u) (hv : Q.Accepts N v)
    (hN : ∀ x ∈ P.last, ∀ y ∈ Q.first, N x y) : (P.before Q).Ends N x (u ++ v) := by
  induction u generalizing x with
  | nil =>
    cases v with
    | nil => exact mem_last_before.mpr (.inr ⟨hv, h⟩)
    | cons y v =>
      refine ⟨hN x h y hv.1, hv.2.mono (fun _ _ hxy => hxy) fun z hz => ?_⟩
      exact mem_last_before.mpr (.inl hz)
  | cons y u ih => exact ⟨h.1, ih h.2⟩

theorem Accepts.before {u v : List Nat} (h : P.Accepts N u) (hv : Q.Accepts N v)
    (hN : ∀ x ∈ P.last, ∀ y ∈ Q.first, N x y) : (P.before Q).Accepts N (u ++ v) := by
  cases u with
  | cons x u => exact ⟨mem_first_before.mpr (.inl h.1), h.2.before hv hN⟩
  | nil =>
    cases v with
    | nil => exact nullable_before.mpr ⟨h, hv⟩
    | cons y v =>
      refine ⟨mem_first_before.mpr (.inr ⟨h, hv.1⟩), hv.2.mono (fun _ _ hxy => hxy) fun z hz => ?_⟩
      exact mem_last_before.mpr (.inl hz)

theorem Accepts.either_left {w : List Nat} (h : P.Accepts N w) : (P.either Q).Accepts N w :=
  h.mono (fun _ _ hxy => hxy) (fun hnull => Bool.or_eq_true_iff.mpr (.inl hnull))
    (fun _ => List.mem_append_left _) fun _ => List.mem_append_left _

theorem Accepts.either_right {w : List Nat} (h : Q.Accepts N w) : (P.either Q).Accepts N w :=
  h.mono (fun _ _ hxy => hxy) (fun hnull => Bool.or_eq_true_iff.mpr (.inr hnull))
    (fun _ => List.mem_append_right _) fun _ => List.mem_append_right _

/-- A word, then words of a repetition: the steps between them lead from last leaves to first
ones. -/
theorem Ends.again {u v : List Nat} {x : Nat} (h : P.Ends N x u) (hv : P.again.Accepts N v)
    (hN : ∀ x ∈ P.last, ∀ y ∈ P.first, N x y) : P.again.Ends N x (u ++ v) := by
  induction u generalizing x with
  | nil =>
    cases v with
    | nil => exact h
    | cons y v => exact ⟨hN x h y hv.1, hv.2⟩
  | cons y u ih => exact ⟨h.1, ih h.2⟩

theorem accepts_again_flatten (hN : ∀ x ∈ P.last, ∀ y ∈ P.first, N x y) :
    ∀ {ws : List (List Nat)}, (∀ w ∈ ws, P.Accepts N w) → P.again.Accepts N ws.flatten := by
  intro ws
  induction ws with
  | nil => exact fun _ => rfl
  | cons w rest ih =>
    intro h
    have hrest := ih fun v hv => h v (.tail _ hv)
    rw [List.flatten_cons]
    cases w with
    | nil => exact hrest
    | cons x w =>
      have hw := h _ (.head _)
      exact ⟨hw.1, hw.2.again hrest hN⟩

/-! ### Taking words apart -/

/-- All leaves lie from `a` on and below `b`. -/
structure Within (P : Positions) (a b : Nat) : Prop where
  first : ∀ x ∈ P.first, a ≤ x ∧ x < b
  last : ∀ x ∈ P.last, a ≤ x ∧ x < b
  links : ∀ x y, P.Links x y → (a ≤ x ∧ x < b) ∧ a ≤ y ∧ y < b

theorem Within.widen {a b a' b' : Nat} (h : P.Within a b) (ha : a' ≤ a) (hb : b ≤ b') :
    P.Within a' b' := by
  have hin : ∀ x, a ≤ x ∧ x < b → a' ≤ x ∧ x < b' := fun x hx =>
    ⟨Nat.le_trans ha hx.1, Nat.lt_of_lt_of_le hx.2 hb⟩
  refine ⟨fun x hx => ?_, fun x hx => ?_, fun x y hxy => ?_⟩
  · exact hin x (h.first x hx)
  · exact hin x (h.last x hx)
  · exact ⟨hin x (h.links x y hxy).1, hin y (h.links x y hxy).2⟩

theorem Within.before {a b c : Nat} (hP : P.Within a b) (hQ : Q.Within b c) (hab : a ≤ b)
    (hbc : b ≤ c) : (P.before Q).Within a c := by
  have hP := hP.widen (Nat.le_refl a) hbc
  have hQ := hQ.widen hab (Nat.le_refl c)
  constructor
  · intro x hx
    rcases mem_first_before.mp hx with h | ⟨_, h⟩
    · exact hP.first x h
    · exact hQ.first x h
  · intro x hx
    rcases mem_last_before.mp hx with h | ⟨_, h⟩
    · exact hQ.last x h
    · exact hP.last x h
  · intro x y hxy
    rcases links_before.mp hxy with h | h | ⟨h, h'⟩
    · exact hP.links x y h
    · exact hQ.links x y h
    · exact ⟨hP.last x h, hQ.first y h'⟩

theorem Within.either {a b c : Nat} (hP : P.Within a b) (hQ : Q.Within b c) (hab : a ≤ b)
    (hbc : b ≤ c) : (P.either Q).Within a c := by
  have hP := hP.widen (Nat.le_refl a) hbc
  have hQ := hQ.widen hab (Nat.le_refl c)
  constructor
  · intro x hx
    rcases List.mem_append.mp hx with h | h
    · exact hP.first x h
    · exact hQ.first x h
  · intro x hx
    rcases List.mem_append.mp hx with h | h
    · exact hP.last x h
    · exact hQ.last x h
  · intro x y hxy
    rcases links_either.mp hxy with h | h
    · exact hP.links x y h
    · exact hQ.links x y h

theorem Within.again {a b : Nat} (hP : P.Within a b) : P.again.Within a b where
  first := hP.first
  last := hP.last
  links x y hxy := by
    rcases links_again.mp hxy with h | ⟨h, h'⟩
    · exact hP.links x y h
    · exact ⟨hP.last x h, hP.first y h'⟩

/-- Once among the leaves of the second part, a word stays there. -/
theorem ends_right_of_before {a b c : Nat} (hP : P.Within a b) (hQ : Q.Within b c) :
    ∀ {w : List Nat} {x : Nat}, b ≤ x → (P.before Q).Ends (P.before Q).Links x w →
      Q.Ends Q.Links x w := by
  intro w
  -- no link leads from a leaf at `b` or later to one before `b`
  induction w with
  | nil =>
    intro x hx h
    rcases mem_last_before.mp h with h | ⟨_, h⟩
    · exact h
    · have := hP.last x h
      omega
  | cons y w ih =>
    intro x hx h
    rcases links_before.mp h.1 with hxy | hxy | ⟨hxy, _⟩
    · have := hP.links x y hxy
      omega
    · have := hQ.links x y hxy
      exact ⟨hxy, ih (by omega) h.2⟩
    · have := hP.last x hxy
      omega

theorem ends_left_of_before {a b c : Nat} (hP : P.Within a b) (hQ : Q.Within b c) :
    ∀ {w : List Nat} {x : Nat}, x < b → (P.before Q).Ends (P.before Q).Links x w →
      ∃ u v, u ++ v = w ∧ P.Ends P.Links x u ∧ Q.Accepts Q.Links v := by
  intro w
  induction w with
  | nil =>
    intro x hx h
    rcases mem_last_before.mp h with h | ⟨hnull, h⟩
    · have := hQ.last x h
      omega
    · exact ⟨[], [], rfl, h, hnull⟩
  | cons y w ih =>
    intro x hx h
    rcases links_before.mp h.1 with hxy | hxy | ⟨hlast, hfirst⟩
    · have := hP.links x y hxy
      obtain ⟨u, v, rfl, hu, hv⟩ := ih (by omega) h.2
      exact ⟨y :: u, v, rfl, ⟨hxy, hu⟩, hv⟩
    · have := hQ.links x y hxy
      omega
    · -- here the word passes from the first part to the second
      have := hQ.first y hfirst
      exact ⟨[], y :: w, rfl, hlast, hfirst, ends_right_of_before hP hQ (by omega) h.2⟩

theorem accepts_of_before {a b c : Nat} (hP : P.Within a b) (hQ : Q.Within b c) {w : List Nat}
    (h : (P.before Q).Accepts (P.before Q).Links w) :
    ∃ u v, u ++ v = w ∧ P.Accepts P.Links u ∧ Q.Accepts Q.Links v := by
  cases w with
  | nil =>
    obtain ⟨hu, hv⟩ := nullable_before.mp h
    exact ⟨[], [], rfl, hu, hv⟩
  | cons x w =>
    rcases mem_first_before.mp h.1 with hx | ⟨hnull, hx⟩
    · have := hP.first x hx
      obtain ⟨u, v, rfl, hu, hv⟩ := ends_left_of_before hP hQ (by omega) h.2
      exact ⟨x :: u, v, rfl, ⟨hx, hu⟩, hv⟩
    · have := hQ.first x hx
      exact ⟨[], x :: w, rfl, hnull, hx, ends_right_of_before hP hQ (by omega) h.2⟩

theorem ends_of_either {a b c : Nat} (hP : P.Within a b) (hQ : Q.Within b c) :
    ∀ {w : List Nat} {x : Nat}, (P.either Q).Ends (P.either Q).Links x w →
      (x < b → P.Ends P.Links x w) ∧ (b ≤ x → Q.Ends Q.Links x w) := by
  intro w
  induction w with
  | nil =>
    intro x h
    rcases List.mem_append.mp h with h | h
    · have := hP.last x h
      exact ⟨fun _ => h, fun _ => by omega⟩
    · have := hQ.last x h
      exact ⟨fun _ => by omega, fun _ => h⟩
  | cons y w ih =>
    intro x h
    rcases links_either.mp h.1 with hxy | hxy
    · have := hP.links x y hxy
      exact ⟨fun _ => ⟨hxy, (ih h.2).1 (by omega)⟩, fun _ => by omega⟩
    · have := hQ.links x y hxy
      exact ⟨fun _ => by omega, fun _ => ⟨hxy, (ih h.2).2 (by omega)⟩⟩

theorem accepts_of_either {a b c : Nat} (hP : P.Within a b) (hQ : Q.Within b c) {w : List Nat}
    (h : (P.either Q).Accepts (P.either Q).Links w) :
    P.Accepts P.Links w ∨ Q.Accepts Q.Links w := by
  cases w with
  | nil => exact Bool.or_eq_true_iff.mp h
  | cons x w =>
    have hends := ends_of_either hP hQ h.2
    rcases List.mem_append.mp h.1 with hx | hx
    · exact .inl ⟨hx, hends.1 (hP.first x hx).2⟩
    · exact .inr ⟨hx, hends.2 (hQ.first x hx).1⟩

/-- A word of a repetition, cut wherever a new round begins. -/
theorem ends_of_again : ∀ {w : List Nat} {x : Nat}, P.again.Ends P.again.Links x w →
    ∃ u ws, u ++ List.flatten ws = w ∧ P.Ends P.Links x u ∧ ∀ v ∈ ws, P.Accepts P.Links v := by
  intro w
  induction w with
  | nil => exact fun h => ⟨[], [], rfl, h, by simp⟩
  | cons y w ih =>
    intro x h
    obtain ⟨u, ws, rfl, hu, hws⟩ := ih h.2
    -- a link that is both kinds at once does no harm: either cut gives words of the body
    rcases links_again.mp h.1 with hxy | ⟨hlast, hfirst⟩
    · exact ⟨y :: u, ws, rfl, ⟨hxy, hu⟩, hws⟩
    · refine ⟨[], (y :: u) :: ws, rfl, hlast, fun v hv => ?_⟩
      rcases List.mem_cons.mp hv with rfl | hv
      · exact ⟨hfirst, hu⟩
      · exact hws v hv

theorem accepts_of_again {w : List Nat} (h : P.again.Accepts P.again.Links w) :
    ∃ ws, List.flatten ws = w ∧ ∀ v ∈ ws, P.Accepts P.Links v := by
  cases w with
  | nil => exact ⟨[], rfl, by simp⟩
  | cons x w =>
    obtain ⟨u, ws, rfl, hu, hws⟩ := ends_of_again h.2
    refine ⟨(x :: u) :: ws, rfl, fun v hv => ?_⟩
    rcases List.mem_cons.mp hv with rfl | hv
    · exact ⟨h.1, hu⟩
    · exact hws v hv

/-- The two kinds of repetition have the same words; they differ in what counts as a new round. -/
theorem accepts_loop_iff {w : List Nat} :
    P.loop.Accepts P.loop.Links w ↔ P.again.Accepts P.again.Links w := by
  have hlinks : ∀ x y, P.loop.Links x y ↔ P.again.Links x y := fun x y =>
    links_loop.trans links_again.symm
  constructor
  · exact Accepts.mono (P := P.loop) (Q := P.again) (fun x y => (hlinks x y).mp)
      (fun hnull => hnull) (fun _ hx => hx) fun _ hx => hx
  · exact Accepts.mono (P := P.again) (Q := P.loop) (fun x y => (hlinks x y).mpr)
      (fun hnull => hnull) (fun _ hx => hx) fun _ hx => hx

theorem Within.loop {a b : Nat} (hP : P.Within a b) : P.loop.Within a b where
  first := hP.first
  last := hP.last
  links x y hxy := hP.again.links x y (links_again.mpr (links_loop.mp hxy))

end Positions

/-! ## The positions of a tree -/

namespace Extent

open Positions

mutual

/-- Which leaves of a tree stand first, last and one behind the other, the first leaf having the
number `n`. -/
def positions : Extent → (n : Nat) → Positions
  | leaf _, n => .single n
  | concatenation parts, n => positionsParts parts n
  | union alternatives, n => positionsAlternatives alternatives n
  | repetition (leaf _), n => (Positions.single n).loop
  | repetition body, n => (body.positions n).again

def positionsParts : List Extent → (n : Nat) → Positions
  | [], _ => .skip
  | part :: others, n => (part.positions n).before (positionsParts others (n + part.leafCount))

def positionsAlternatives : List Extent → (n : Nat) → Positions
  | [], _ => .never
  | alternative :: others, n =>
    (alternative.positions n).either (positionsAlternatives others (n + alternative.leafCount))

end

/-- A repeated character goes on within the same round, a repeated extent begins a new one. -/
theorem positions_repetition (body : Extent) (n : Nat) : (repetition body).positions n =
    if body.isLeaf then (body.positions n).loop else (body.positions n).again := by
  cases body <;> rfl

mutual

theorem within_positions : ∀ (e : Extent) (n : Nat),
    (e.positions n).Within n (n + e.leafCount)
  | leaf _, n => by
    constructor <;> simp [positions, Positions.single, Links, leafCount]
  | concatenation parts, n => within_positionsParts parts n
  | union alternatives, n => within_positionsAlternatives alternatives n
  | repetition body, n => by
    rw [positions_repetition]
    have hbody := within_positions body n
    split
    · exact hbody.loop
    · exact hbody.again

theorem within_positionsParts : ∀ (es : List Extent) (n : Nat),
    (positionsParts es n).Within n (n + leafCountAll es)
  | [], n => by constructor <;> simp [positionsParts, skip, Links]
  | e :: others, n => by
    have hothers := within_positionsParts others (n + e.leafCount)
    rw [leafCountAll, ← Nat.add_assoc]
    exact (within_positions e n).before hothers (Nat.le_add_right _ _) (Nat.le_add_right _ _)

theorem within_positionsAlternatives : ∀ (es : List Extent) (n : Nat),
    (positionsAlternatives es n).Within n (n + leafCountAll es)
  | [], n => by constructor <;> simp [positionsAlternatives, never, Links]
  | e :: others, n => by
    have hothers := within_positionsAlternatives others (n + e.leafCount)
    rw [leafCountAll, ← Nat.add_assoc]
    exact (within_positions e n).either hothers (Nat.le_add_right _ _) (Nat.le_add_right _ _)

end

open Computability

mutual

/-- **A trace is what starts, goes on and ends as the positions allow.** -/
theorem accepts_iff_mem_traces : ∀ (e : Extent) (n : Nat) (w : List Nat),
    (e.positions n).Accepts (e.positions n).Links w ↔ w ∈ e.traces n
  | leaf c, n, w => by
    show (Positions.single n).Accepts (Positions.single n).Links w ↔ w = [n]
    match w with
    | [] => simp [Accepts, Positions.single]
    | [x] => simp [Accepts, Ends, Positions.single]
    | x :: y :: rest => simp [Accepts, Ends, Positions.single, Links]
  | concatenation parts, n, w => acceptsParts_iff_mem_traces parts n w
  | union alternatives, n, w => acceptsAlternatives_iff_mem_traces alternatives n w
  | repetition body, n, w => by
    have hbody := accepts_iff_mem_traces body n
    have hwords : ((repetition body).positions n).Accepts ((repetition body).positions n).Links w ↔
        (body.positions n).again.Accepts (body.positions n).again.Links w := by
      rw [positions_repetition]
      split
      · exact accepts_loop_iff
      · rfl
    rw [hwords, traces, Language.mem_kstar]
    constructor
    · intro h
      obtain ⟨ws, rfl, hws⟩ := accepts_of_again h
      exact ⟨ws, rfl, fun v hv => (hbody v).mp (hws v hv)⟩
    · intro h
      obtain ⟨ws, rfl, hws⟩ := h
      refine accepts_again_flatten (fun x hx y hy => links_again.mpr (.inr ⟨hx, hy⟩)) fun v hv => ?_
      exact ((hbody v).mpr (hws v hv)).relax fun x y hxy => links_again.mpr (.inl hxy)

theorem acceptsParts_iff_mem_traces : ∀ (es : List Extent) (n : Nat) (w : List Nat),
    (positionsParts es n).Accepts (positionsParts es n).Links w ↔ w ∈ tracesParts es n
  | [], n, w => by
    rw [tracesParts, Language.mem_one]
    cases w <;> simp [Accepts, positionsParts, skip]
  | e :: others, n, w => by
    rw [tracesParts, Language.mem_mul]
    constructor
    · intro h
      obtain ⟨u, v, rfl, hu, hv⟩ := accepts_of_before (within_positions e n)
        (within_positionsParts others (n + e.leafCount)) h
      exact ⟨u, (accepts_iff_mem_traces e n u).mp hu, v,
        (acceptsParts_iff_mem_traces others _ v).mp hv, rfl⟩
    · intro h
      obtain ⟨u, hu, v, hv, rfl⟩ := h
      have hu := (accepts_iff_mem_traces e n u).mpr hu
      have hv := (acceptsParts_iff_mem_traces others _ v).mpr hv
      refine Accepts.before ?_ ?_ fun x hx y hy => links_before.mpr (.inr (.inr ⟨hx, hy⟩))
      · exact hu.relax fun x y hxy => links_before.mpr (.inl hxy)
      · exact hv.relax fun x y hxy => links_before.mpr (.inr (.inl hxy))

theorem acceptsAlternatives_iff_mem_traces : ∀ (es : List Extent) (n : Nat) (w : List Nat),
    (positionsAlternatives es n).Accepts (positionsAlternatives es n).Links w ↔
      w ∈ tracesAlternatives es n
  | [], n, w => by
    rw [tracesAlternatives]
    cases w <;> simp [Accepts, positionsAlternatives, never]
  | e :: others, n, w => by
    rw [tracesAlternatives, Language.mem_add]
    constructor
    · intro h
      rcases accepts_of_either (within_positions e n)
        (within_positionsAlternatives others (n + e.leafCount)) h with h | h
      · exact .inl ((accepts_iff_mem_traces e n w).mp h)
      · exact .inr ((acceptsAlternatives_iff_mem_traces others _ w).mp h)
    · intro h
      rcases h with h | h
      · have h := (accepts_iff_mem_traces e n w).mpr h
        exact Accepts.either_left (h.relax fun x y hxy => links_either.mpr (.inl hxy))
      · have h := (acceptsAlternatives_iff_mem_traces others _ w).mpr h
        exact Accepts.either_right (h.relax fun x y hxy => links_either.mpr (.inr hxy))

end

end Extent

end CaretAutomata

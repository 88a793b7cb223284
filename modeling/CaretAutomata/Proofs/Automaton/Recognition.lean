import CaretAutomata.Proofs.Automaton.Wiring
import CaretAutomata.Proofs.Extent.Solid
import CaretAutomata.Proofs.Pattern.Derivation

/-!
# What the automaton of a pattern recognises

The edges on characters are right (`reads_iff`): they say which leaf can stand behind which within
one round of every repetition. What is left to the silent edges is the step from one round to the
next — from a last leaf of a repeated extent to a first one — and there the construction goes wrong
in both directions.

* *Too few.* Only the last child of a body leads back. In `(ab^)^` that is `b`, and a round that
  leaves `b` out ends at `a`, from where nothing leads back: `aa` is lost.
* *Too many.* What leads back leads to the *starters* of the repetition, which are not its own. In
  `(a)^|b` it is the start state, where the other alternative begins too: `ab` is recognised.

The two theorems say that these are the only ways to go wrong. For every pattern, all words are
recognised exactly when each step to a next round can be taken (`RoundsTaken`), and only words are
recognised exactly when silent edges lead to nothing else (`StaysInside`). Both are conditions on
pairs of states, not on words. "Exactly" is meant of leaves: with the same character at two leaves a
word that is lost at one may be found again at the other, so for the words themselves the converse
asks for different characters.
-/

namespace CaretAutomata

open Relation Positions

namespace Extent

open Automaton

/-- A run of the tree's automaton from the start state to an exit spells the word. -/
def Recognises (e : Extent) (w : List Char) : Prop :=
  ∃ x ∈ e.wiring.exits, (ofExtent e).Run 0 w x

/-- A run from the start state to an exit reads one character into each of the states. -/
def Visits (e : Extent) (qs : List StateId) : Prop :=
  ∃ y, Trail (ofExtent e).Step 0 qs y ∧ ∃ x ∈ e.wiring.exits, (ofExtent e).Silent y x

/-- The step from a last leaf of a repeated extent to a first one can be taken. -/
def RoundsTaken (e : Extent) : Prop :=
  ∀ p q, (p, q) ∈ (e.positions 1).rounds → (ofExtent e).Step p q

/-- With silent edges in front, nothing can be read but what follows or begins the next round, and
no exit can be come to but from an exit. -/
def StaysInside (e : Extent) : Prop :=
  (∀ p q, (ofExtent e).Step p q → (ofExtent e).Reads p q ∨ (p, q) ∈ (e.positions 1).rounds) ∧
  ∀ p, ∀ x ∈ e.wiring.exits, (ofExtent e).Silent p x → p ∈ e.wiring.exits

variable {e : Extent}

/-! ## Words as trails -/

theorem recognises_iff {w : List Char} :
    e.Recognises w ↔ ∃ qs, qs.map e.letter = w ∧ e.Visits qs := by
  have hrun : ∀ x, (ofExtent e).Run 0 w x ↔ ∃ qs y, qs.map e.letter = w ∧
      Trail (ofExtent e).Step 0 qs y ∧ (ofExtent e).Silent y x :=
    fun x => run_iff_trail fun p c q hedge => (hasEdge_char.mp hedge).2
  unfold Recognises Visits
  constructor
  · intro h
    obtain ⟨x, hx, h⟩ := h
    obtain ⟨qs, y, hw, htrail, hsilent⟩ := (hrun x).mp h
    exact ⟨qs, hw, y, htrail, x, hx, hsilent⟩
  · intro h
    obtain ⟨qs, hw, y, htrail, x, hx, hsilent⟩ := h
    exact ⟨x, hx, (hrun x).mpr ⟨qs, y, hw, htrail, hsilent⟩⟩

theorem mem_language_iff {w : List Char} :
    w ∈ e.language ↔ ∃ qs, qs.map e.letter = w ∧ qs ∈ e.traces 1 := by
  rw [e.language_eq_map 1 e.lettered_letter]
  exact ⟨fun ⟨qs, hqs, hw⟩ => ⟨qs, hw, hqs⟩, fun ⟨qs, hw, hqs⟩ => ⟨qs, hqs, hw⟩⟩

/-- The exits beside the start state are the last leaves. -/
theorem mem_exits_iff {x : StateId} (hx : 1 ≤ x) :
    x ∈ e.wiring.exits ↔ x ∈ (e.positions 1).last := by
  rw [mem_exits_wiring]
  constructor
  · intro h
    rcases h with h | ⟨_, rfl⟩
    · exact h
    · exact absurd hx (by decide)
  · exact .inl

/-- Starting with a first leaf is what a step from the start state does, and ending with a last one
is what coming to an exit does. -/
theorem accepts_iff_trail {N N' : StateId → StateId → Prop}
    (hfirst : ∀ q, N' 0 q ↔ q ∈ (e.positions 1).first)
    (hnext : ∀ p q, 1 ≤ p → (N' p q ↔ N p q)) (htarget : ∀ p q, N' p q → 1 ≤ q)
    {qs : List StateId} :
    (e.positions 1).Accepts N qs ↔ ∃ x ∈ e.wiring.exits, Trail N' 0 qs x := by
  -- from a leaf on, where `N'` and `N` agree and exits are last leaves
  have hends : ∀ {qs : List StateId} {p : StateId}, 1 ≤ p →
      ((e.positions 1).Ends N p qs ↔ ∃ x ∈ e.wiring.exits, Trail N' p qs x) := by
    intro qs
    induction qs with
    | nil =>
      intro p hp
      have hexit := mem_exits_iff (e := e) hp
      exact ⟨fun h => ⟨p, hexit.mpr h, rfl⟩, fun ⟨x, hx, heq⟩ => hexit.mp (heq ▸ hx)⟩
    | cons q rest ih =>
      intro p hp
      constructor
      · intro h
        obtain ⟨hstep, hrest⟩ := h
        have hstep' := (hnext p q hp).mpr hstep
        obtain ⟨x, hx, htrail⟩ := (ih (htarget p q hstep')).mp hrest
        exact ⟨x, hx, hstep', htrail⟩
      · intro h
        obtain ⟨x, hx, hstep, htrail⟩ := h
        exact ⟨(hnext p q hp).mp hstep, (ih (htarget p q hstep)).mpr ⟨x, hx, htrail⟩⟩
  cases qs with
  | nil =>
    have hzero : (0 : StateId) ∈ e.wiring.exits ↔ (e.positions 1).nullable = true := by
      rw [mem_exits_wiring]
      constructor
      · intro h
        rcases h with h | ⟨h, _⟩
        · exact absurd ((e.within_positions 1).last 0 h).1 (by decide)
        · exact h
      · exact fun h => .inr ⟨h, rfl⟩
    exact ⟨fun h => ⟨0, hzero.mpr h, rfl⟩, fun ⟨x, hx, heq⟩ => hzero.mp (heq ▸ hx)⟩
  | cons q rest =>
    constructor
    · intro h
      obtain ⟨hq, hrest⟩ := h
      have hstep := (hfirst q).mpr hq
      obtain ⟨x, hx, htrail⟩ := (hends (htarget 0 q hstep)).mp hrest
      exact ⟨x, hx, hstep, htrail⟩
    · intro h
      obtain ⟨x, hx, hstep, htrail⟩ := h
      exact ⟨(hfirst q).mp hstep, (hends (htarget 0 q hstep)).mpr ⟨x, hx, htrail⟩⟩

theorem reads_target {p q : StateId} (h : (ofExtent e).Reads p q) :
    1 ≤ q ∧ q < 1 + e.leafCount := by
  rcases reads_iff.mp h with ⟨_, h⟩ | h
  · exact (e.within_positions 1).first q h
  · exact ((e.within_positions 1).links p q (.inl h)).2

theorem not_links_zero {q : StateId} : ¬ (e.positions 1).Links 0 q := fun h =>
  absurd ((e.within_positions 1).links 0 q h).1.1 (by decide)

theorem reads_zero {q : StateId} : (ofExtent e).Reads 0 q ↔ q ∈ (e.positions 1).first := by
  rw [reads_iff]
  exact ⟨fun h => (h.resolve_right fun h => not_links_zero (.inl h)).2, fun h => .inl ⟨rfl, h⟩⟩

theorem reads_leaf {p q : StateId} (hp : 1 ≤ p) :
    (ofExtent e).Reads p q ↔ (e.positions 1).Follows p q := by
  rw [reads_iff]
  refine ⟨fun h => h.resolve_left fun h => ?_, .inr⟩
  exact absurd (h.1 ▸ hp) (by decide)

/-- A trace is a trail of edges on characters and of steps to a next round. -/
theorem mem_traces_iff {qs : List StateId} : qs ∈ e.traces 1 ↔ ∃ x ∈ e.wiring.exits,
    Trail (fun p q => (ofExtent e).Reads p q ∨ (p, q) ∈ (e.positions 1).rounds) 0 qs x := by
  rw [← accepts_iff_mem_traces]
  apply accepts_iff_trail
  · intro q
    rw [reads_zero]
    exact ⟨fun h => h.resolve_right fun h => not_links_zero (.inr h), .inl⟩
  · intro p q hp
    rw [reads_leaf hp]
    rfl
  · intro p q h
    rcases h with h | h
    · exact (reads_target h).1
    · exact ((e.within_positions 1).links p q (.inr h)).2.1

/-! ## Ways along edges on characters -/

theorem accepts_follows_iff {qs : List StateId} :
    (e.positions 1).Accepts (e.positions 1).Follows qs ↔
      ∃ x ∈ e.wiring.exits, Trail (ofExtent e).Reads 0 qs x := by
  apply accepts_iff_trail
  · exact fun q => reads_zero
  · exact fun p q hp => reads_leaf hp
  · exact fun p q h => (reads_target h).1

theorem exists_trail_to (h : e.Solid) {p : StateId} (hp : p < (ofExtent e).size) :
    ∃ u, Trail (ofExtent e).Reads 0 u p := by
  rw [size_ofExtent, Nat.add_comm] at hp
  cases p with
  | zero => exact ⟨[], rfl⟩
  | succ p =>
    obtain ⟨u, v, hw⟩ := exists_accepts_through e 1 h (p + 1) (Nat.le_add_left 1 p) hp
    obtain ⟨z, _, htrail⟩ := accepts_follows_iff.mp hw
    obtain ⟨q, hu, hread, _⟩ := Trail.append.mp htrail
    exact ⟨u ++ [p + 1], Trail.append.mpr ⟨q, hu, hread, rfl⟩⟩

theorem exists_trail_from (h : e.Solid) {q : StateId} (hq : 1 ≤ q) (hq' : q < 1 + e.leafCount) :
    ∃ v, ∃ z ∈ e.wiring.exits, Trail (ofExtent e).Reads q v z := by
  obtain ⟨u, v, hw⟩ := exists_accepts_through e 1 h q hq hq'
  obtain ⟨z, hz, htrail⟩ := accepts_follows_iff.mp hw
  obtain ⟨_, _, _, hv⟩ := Trail.append.mp htrail
  exact ⟨v, z, hz, hv⟩

/-! ## Leaves -/

theorem visits_of_mem_traces (h : e.RoundsTaken) {qs : List StateId} (hqs : qs ∈ e.traces 1) :
    e.Visits qs := by
  obtain ⟨x, hx, htrail⟩ := mem_traces_iff.mp hqs
  refine ⟨x, htrail.mono fun p q hstep => ?_, x, hx, .refl⟩
  rcases hstep with hreads | hround
  · exact hreads.step
  · exact h p q hround

theorem mem_traces_of_visits (h : e.StaysInside) {qs : List StateId} (hqs : e.Visits qs) :
    qs ∈ e.traces 1 := by
  obtain ⟨y, htrail, x, hx, hsilent⟩ := hqs
  exact mem_traces_iff.mpr ⟨y, h.2 y x hx hsilent, htrail.mono h.1⟩

/-- **Every trace is visited exactly when every next round can be taken.** -/
theorem traces_visited_iff (h : e.Solid) :
    (∀ qs ∈ e.traces 1, e.Visits qs) ↔ e.RoundsTaken := by
  constructor
  · intro hall p q hround
    obtain ⟨⟨_, hp⟩, hq, hq'⟩ := (e.within_positions 1).links p q (.inr hround)
    have hsize : p < (ofExtent e).size := by rwa [size_ofExtent, Nat.add_comm]
    obtain ⟨u, hu⟩ := exists_trail_to h hsize
    obtain ⟨v, z, hz, hv⟩ := exists_trail_from h hq hq'
    -- a trace that takes this next round and no other one
    have htrace : u ++ q :: v ∈ e.traces 1 := mem_traces_iff.mpr ⟨z, hz, Trail.append.mpr
      ⟨p, hu.mono fun _ _ => .inl, .inr hround, hv.mono fun _ _ => .inl⟩⟩
    obtain ⟨_, htrail, _⟩ := hall _ htrace
    obtain ⟨p', hu', hstep, _⟩ := Trail.append.mp htrail
    exact hu.end_unique hu' ▸ hstep
  · exact fun hrounds _ hqs => visits_of_mem_traces hrounds hqs

/-- **Nothing but traces is visited exactly when silent edges stay inside.** -/
theorem visited_traces_iff (h : e.Solid) :
    (∀ qs, e.Visits qs → qs ∈ e.traces 1) ↔ e.StaysInside := by
  constructor
  · intro hall
    refine ⟨fun p q hstep => ?_, fun p x hx hsilent => ?_⟩
    · obtain ⟨r, hr, hread⟩ := hstep
      obtain ⟨hq, hq'⟩ := reads_target hread
      have hstep : (ofExtent e).Step p q := ⟨r, hr, hread⟩
      obtain ⟨u, hu⟩ := exists_trail_to h hstep.lt
      obtain ⟨v, z, hz, hv⟩ := exists_trail_from h hq hq'
      -- a run that takes this step and no other one with silent edges
      have hvisits : e.Visits (u ++ q :: v) := ⟨z, Trail.append.mpr
        ⟨p, hu.mono fun _ _ => Reads.step, hstep, hv.mono fun _ _ => Reads.step⟩, z, hz, .refl⟩
      obtain ⟨_, _, htrail⟩ := mem_traces_iff.mp (hall _ hvisits)
      obtain ⟨p', hu', hlink, _⟩ := Trail.append.mp htrail
      exact hu.end_unique hu' ▸ hlink
    · rcases hsilent.eq_or_lt with rfl | hlt
      · exact hx
      · obtain ⟨u, hu⟩ := exists_trail_to h hlt
        have hvisits : e.Visits u := ⟨p, hu.mono fun _ _ => Reads.step, x, hx, hsilent⟩
        obtain ⟨z, hz, htrail⟩ := mem_traces_iff.mp (hall _ hvisits)
        exact hu.end_unique htrail ▸ hz
  · exact fun hstays _ hqs => mem_traces_of_visits hstays hqs

/-! ## Words -/

theorem leaf_of_mem_traces {qs : List StateId} (h : qs ∈ e.traces 1) :
    ∀ q ∈ qs, 1 ≤ q ∧ q < 1 + e.leafCount := by
  obtain ⟨x, _, htrail⟩ := mem_traces_iff.mp h
  refine htrail.forall_mem fun p q hstep => ?_
  rcases hstep with hreads | hround
  · exact reads_target hreads
  · exact ((e.within_positions 1).links p q (.inr hround)).2

theorem leaf_of_visits {qs : List StateId} (h : e.Visits qs) :
    ∀ q ∈ qs, 1 ≤ q ∧ q < 1 + e.leafCount := by
  obtain ⟨_, htrail, _⟩ := h
  exact htrail.forall_mem fun p q ⟨_, _, hreads⟩ => reads_target hreads

/-- With a different character at every leaf, a word tells its leaves. -/
theorem eq_of_map_letter_eq (h : e.characters.Nodup) : ∀ {qs qs' : List StateId},
    (∀ q ∈ qs, 1 ≤ q ∧ q < 1 + e.leafCount) → (∀ q ∈ qs', 1 ≤ q ∧ q < 1 + e.leafCount) →
    qs.map e.letter = qs'.map e.letter → qs = qs'
  | [], [], _, _, _ => rfl
  | [], _ :: _, _, _, heq => absurd heq (by simp)
  | _ :: _, [], _, _, heq => absurd heq (by simp)
  | q :: qs, q' :: qs', hqs, hqs', heq => by
    obtain ⟨hhead, htail⟩ := List.cons.inj heq
    obtain ⟨hq, hrest⟩ := List.forall_mem_cons.mp hqs
    obtain ⟨hq', hrest'⟩ := List.forall_mem_cons.mp hqs'
    rw [letter_injective h hq.1 hq.2 hq'.1 hq'.2 hhead, eq_of_map_letter_eq h hrest hrest' htail]

theorem solid_of_parse {limits : Pattern.Limits} {pattern : String} {t : Extent}
    (h : Pattern.parse limits pattern = .ok t) : t.Solid := by
  obtain ⟨e, _, rfl⟩ := Pattern.expression_of_parse h
  exact e.solid_tree

/-- **No word of a pattern is lost exactly when every next round can be taken**: of its traces this
holds as it stands, of its words in one direction, and in both where all characters differ. -/
theorem parse_words_recognised {limits : Pattern.Limits} {pattern : String} {t : Extent}
    (h : Pattern.parse limits pattern = .ok t) :
    ((∀ qs ∈ t.traces 1, t.Visits qs) ↔ t.RoundsTaken) ∧
    (t.RoundsTaken → ∀ w ∈ t.language, t.Recognises w) ∧
    (t.characters.Nodup → (∀ w ∈ t.language, t.Recognises w) → t.RoundsTaken) := by
  have hsolid := solid_of_parse h
  refine ⟨traces_visited_iff hsolid, fun hrounds w hw => ?_, fun hnodup hall => ?_⟩
  · obtain ⟨qs, hmap, hqs⟩ := mem_language_iff.mp hw
    exact recognises_iff.mpr ⟨qs, hmap, visits_of_mem_traces hrounds hqs⟩
  · refine (traces_visited_iff hsolid).mp fun qs hqs => ?_
    obtain ⟨qs', hmap, hvisits⟩ := recognises_iff.mp
      (hall _ (mem_language_iff.mpr ⟨qs, rfl, hqs⟩))
    rwa [eq_of_map_letter_eq hnodup (leaf_of_visits hvisits) (leaf_of_mem_traces hqs) hmap]
      at hvisits

/-- The tree of `(ab)^`. -/
def repeatedPair : Extent := .repetition (.concatenation [.leaf 'a', .leaf 'b'])

theorem parse_repeatedPair : Pattern.parse {} "(ab)^" = .ok repeatedPair :=
  Pattern.parse_of_spelling (e := .one (.one (.group (.one (.more
    (.sign ⟨'a', by decide⟩ false) (.one (.sign ⟨'b', by decide⟩ false)))) true)))
    (by decide) (by decide) (by decide)

/-- The only silent edge of `(ab)^` leads from its end to its beginning. -/
theorem silent_repeatedPair {p q : StateId} :
    (ofExtent repeatedPair).HasEdge p .epsilon q ↔ p = 2 ∧ q = 0 := by
  simp [hasEdge_ofExtent, repeatedPair, wiring, wire, wireParts, enter, loopBack, leafCount,
    leafCountAll, Arrival.mem_merge]
  constructor
  · intro h
    obtain ⟨_, rfl, rfl⟩ := h
    exact ⟨rfl, rfl⟩
  · intro h
    obtain ⟨rfl, rfl⟩ := h
    exact ⟨by decide, rfl, rfl⟩

theorem parse_words_recognised_repeatedPair : Pattern.parse {} "(ab)^" = .ok repeatedPair ∧
    repeatedPair.RoundsTaken ∧ ∀ w ∈ repeatedPair.language, repeatedPair.Recognises w := by
  have hrounds : repeatedPair.RoundsTaken := by
    intro p q hround
    have hpair : (p, q) ∈ [(2, 1)] := hround
    obtain ⟨rfl, rfl⟩ := Prod.mk.inj (List.mem_singleton.mp hpair)
    exact ⟨0, .single (silent_repeatedPair.mpr ⟨rfl, rfl⟩), reads_zero.mpr (by decide)⟩
  exact ⟨parse_repeatedPair, hrounds, (parse_words_recognised parse_repeatedPair).2.1 hrounds⟩

/-- The tree of `(ab^)^`: a round can end with `a`, from where nothing leads back. -/
def skippedEnd : Extent := .repetition (.concatenation [.leaf 'a', .repetition (.leaf 'b')])

theorem parse_skippedEnd : Pattern.parse {} "(ab^)^" = .ok skippedEnd :=
  Pattern.parse_of_spelling (e := .one (.one (.group (.one (.more
    (.sign ⟨'a', by decide⟩ false) (.one (.sign ⟨'b', by decide⟩ true)))) true)))
    (by decide) (by decide) (by decide)

theorem silent_skippedEnd {p q : StateId} :
    (ofExtent skippedEnd).HasEdge p .epsilon q ↔ p = 2 ∧ q = 0 := by
  simp [hasEdge_ofExtent, skippedEnd, wiring, wire, wireParts, enter, loopBack, leafCount,
    leafCountAll, Arrival.mem_merge]
  constructor
  · intro h
    obtain ⟨_, rfl, rfl⟩ := h
    exact ⟨rfl, rfl⟩
  · intro h
    obtain ⟨rfl, rfl⟩ := h
    exact ⟨by decide, rfl, rfl⟩

/-- `aa` is a word of `(ab^)^` that the automaton loses. -/
theorem skippedEnd_loses_word : Pattern.parse {} "(ab^)^" = .ok skippedEnd ∧
    ['a', 'a'] ∈ skippedEnd.language ∧ ¬ skippedEnd.Recognises ['a', 'a'] := by
  have htrace : [1, 1] ∈ skippedEnd.traces 1 := by
    rw [← accepts_iff_mem_traces]
    have hlast : 1 ∈ (skippedEnd.positions 1).last := by decide
    exact ⟨by decide, .inr (by decide), hlast⟩
  refine ⟨parse_skippedEnd, mem_language_iff.mpr ⟨[1, 1], by decide, htrace⟩, fun h => ?_⟩
  obtain ⟨qs, hmap, hvisits⟩ := recognises_iff.mp h
  have hmap : qs.map skippedEnd.letter = [1, 1].map skippedEnd.letter := hmap
  obtain rfl : qs = [1, 1] :=
    eq_of_map_letter_eq (by decide) (leaf_of_visits hvisits) (leaf_of_mem_traces htrace) hmap
  obtain ⟨_, ⟨_, ⟨r, hsilent, hreads⟩, _⟩, _⟩ := hvisits
  -- `1` has no silent edge, and does not read `a` itself
  have hr : 1 = r := by
    rcases ReflTransGen.cases_head hsilent with heq | ⟨_, hedge, _⟩
    · exact heq
    · exact absurd (silent_skippedEnd.mp hedge).1 (by decide)
  subst hr
  exact absurd ((reads_leaf (by decide)).mp hreads) (by unfold Follows; decide)

/-- **No other word is recognised exactly when silent edges stay inside**: of the leaves that a run
visits this holds as it stands, of its words in one direction, and in both where all characters
differ. -/
theorem parse_recognised_words {limits : Pattern.Limits} {pattern : String} {t : Extent}
    (h : Pattern.parse limits pattern = .ok t) :
    ((∀ qs, t.Visits qs → qs ∈ t.traces 1) ↔ t.StaysInside) ∧
    (t.StaysInside → ∀ w, t.Recognises w → w ∈ t.language) ∧
    (t.characters.Nodup → (∀ w, t.Recognises w → w ∈ t.language) → t.StaysInside) := by
  have hsolid := solid_of_parse h
  refine ⟨visited_traces_iff hsolid, fun hstays w hw => ?_, fun hnodup hall => ?_⟩
  · obtain ⟨qs, hmap, hvisits⟩ := recognises_iff.mp hw
    exact mem_language_iff.mpr ⟨qs, hmap, mem_traces_of_visits hstays hvisits⟩
  · refine (visited_traces_iff hsolid).mp fun qs hvisits => ?_
    obtain ⟨qs', hmap, hqs⟩ := mem_language_iff.mp
      (hall _ (recognises_iff.mpr ⟨qs, rfl, hvisits⟩))
    rwa [eq_of_map_letter_eq hnodup (leaf_of_mem_traces hqs) (leaf_of_visits hvisits) hmap] at hqs

theorem parse_recognised_words_repeatedPair : Pattern.parse {} "(ab)^" = .ok repeatedPair ∧
    repeatedPair.StaysInside ∧ ∀ w, repeatedPair.Recognises w → w ∈ repeatedPair.language := by
  have hsilent : ∀ {p r : StateId}, (ofExtent repeatedPair).Silent p r →
      p = r ∨ p = 2 ∧ r = 0 := by
    intro p r h
    induction h using ReflTransGen.head_induction_on with
    | refl => exact .inl rfl
    | head hedge _ ih =>
      obtain ⟨rfl, rfl⟩ := silent_repeatedPair.mp hedge
      rcases ih with rfl | ⟨h, _⟩
      · exact .inr ⟨rfl, rfl⟩
      · exact absurd h (by decide)
  have hstays : repeatedPair.StaysInside := by
    constructor
    · intro p q h
      obtain ⟨r, hr, hreads⟩ := h
      rcases hsilent hr with rfl | ⟨rfl, rfl⟩
      · exact .inl hreads
      · have hfirst : q ∈ [1] := reads_zero.mp hreads
        obtain rfl := List.mem_singleton.mp hfirst
        exact .inr (by decide)
    · intro p x hx hr
      rcases hsilent hr with rfl | ⟨rfl, _⟩
      · exact hx
      · exact (mem_exits_iff (by decide)).mpr (by decide)
  exact ⟨parse_repeatedPair, hstays, (parse_recognised_words parse_repeatedPair).2.1 hstays⟩

/-- The tree of `(a)^|b`: behind `a` the way back leads to the start state, where `b` begins. -/
def sharedStart : Extent :=
  .union [.repetition (.concatenation [.leaf 'a']), .concatenation [.leaf 'b']]

theorem parse_sharedStart : Pattern.parse {} "(a)^|b" = .ok sharedStart :=
  Pattern.parse_of_spelling (e := .more (.one (.group (.one (.one
    (.sign ⟨'a', by decide⟩ false))) true)) (.one (.one (.sign ⟨'b', by decide⟩ false))))
    (by decide) (by decide) (by decide)

/-- `ab` is no word of `(a)^|b`, but the automaton recognises it. -/
theorem sharedStart_recognises_other : Pattern.parse {} "(a)^|b" = .ok sharedStart ∧
    sharedStart.Recognises ['a', 'b'] ∧ ['a', 'b'] ∉ sharedStart.language := by
  have hback : (ofExtent sharedStart).HasEdge 1 .epsilon 0 := by
    simp [hasEdge_ofExtent, sharedStart, wiring, wire, wireParts, wireAlternatives, enter,
      loopBack, leafCount, leafCountAll, Arrival.mem_merge]
  have hvisits : sharedStart.Visits [1, 2] := by
    have hfirst : (ofExtent sharedStart).Reads 0 1 := reads_zero.mpr (by decide)
    have hsecond : (ofExtent sharedStart).Reads 0 2 := reads_zero.mpr (by decide)
    have hexit : 2 ∈ sharedStart.wiring.exits := (mem_exits_iff (by decide)).mpr (by decide)
    exact ⟨2, ⟨hfirst.step, ⟨0, .single hback, hsecond⟩, rfl⟩, 2, hexit, .refl⟩
  refine ⟨parse_sharedStart, recognises_iff.mpr ⟨[1, 2], by decide, hvisits⟩, fun h => ?_⟩
  obtain ⟨qs, hmap, hqs⟩ := mem_language_iff.mp h
  have hmap : qs.map sharedStart.letter = [1, 2].map sharedStart.letter := hmap
  obtain rfl : qs = [1, 2] :=
    eq_of_map_letter_eq (by decide) (leaf_of_mem_traces hqs) (leaf_of_visits hvisits) hmap
  rw [← accepts_iff_mem_traces] at hqs
  have hlink : (sharedStart.positions 1).Links 1 2 := hqs.2.1
  unfold Links at hlink
  exact absurd hlink (by decide)

end Extent

end CaretAutomata

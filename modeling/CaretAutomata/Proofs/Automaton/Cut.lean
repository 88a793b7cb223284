import CaretAutomata.Proofs.Automaton.Direction

/-!
# The point of no return

A part of a pattern that cannot be left out is passed at some moment, and behind that moment it
cannot be begun again. `Cut` is what lies behind: states of the part, all its exits among them, that
no edge of the part leads out of. `exists_cut` finds it for every part to which no repeaters are
handed down, so in a whole tree, unless the empty word is one of its words, no exit leads back to
the start state (`not_reaches_start`).

A part that can be left out has no cut, since its starters are among its exits; and in the body of a
repetition the way back is there by design.
-/

namespace CaretAutomata.Extent

open Relation Positions Automaton

/-- States of a part that hold its exits, and out of which no edge of it leads. -/
structure Cut (a b : Nat) (wired : Wiring) (A : StateId → Prop) : Prop where
  own : ∀ x, A x → a ≤ x ∧ x < b
  exits : ∀ x ∈ wired.exits, A x
  stays : ∀ edge ∈ wired.edges, A edge.source → A edge.target

theorem cut_leaf {c : Char} {n : Nat} {S : List StateId} (hS : ∀ x ∈ S, x < n) :
    Cut n (n + 1) ((leaf c).wire n S []) (· = n) where
  own x hx := ⟨Nat.le_of_eq hx.symm, Nat.lt_succ_of_le (Nat.le_of_eq hx)⟩
  exits x hx := List.mem_singleton.mp hx
  stays edge hedge hsource := by
    cases List.mem_append.mp hedge with
    | inl henter =>
      have hlt := hS _ (mem_enter.mp henter).1
      exact absurd hsource (Nat.ne_of_lt hlt)
    | inr hback => exact absurd hback (by simp [loopBack])

/-- Behind the cut of the first part, everything belongs to the cut of the whole. -/
theorem Cut.append {e : Extent} {rest : List Extent} {n : Nat} {S : List StateId}
    {A : StateId → Prop} (hS : ∀ x ∈ S, x < n) (h : Cut n (n + e.leafCount) (e.wire n S []) A) :
    Cut n (n + e.leafCount + leafCountAll rest)
      ⟨(e.wire n S []).edges ++
          (wireParts rest (n + e.leafCount) (e.wire n S []).exits []).edges,
        (wireParts rest (n + e.leafCount) (e.wire n S []).exits []).exits⟩
      fun x => A x ∨ n + e.leafCount ≤ x ∧ x < n + e.leafCount + leafCountAll rest where
  own x hx := by
    cases hx with
    | inl hx => exact ⟨(h.own x hx).1, Nat.lt_of_lt_of_le (h.own x hx).2 (Nat.le_add_right _ _)⟩
    | inr hx => exact ⟨Nat.le_trans (Nat.le_add_right _ _) hx.1, hx.2⟩
  exits x hx := by
    cases (mem_exits_wireParts rest _ _ [] x).mp hx with
    | inl hlast => exact .inr ((within_positionsParts rest _).last x hlast)
    | inr hskip => exact .inl (h.exits x hskip.2)
  stays edge hedge hsource := by
    cases List.mem_append.mp hedge with
    | inl hfirst =>
      cases hsource with
      | inl hA => exact .inl (h.stays edge hfirst hA)
      | inr hle =>
        -- no edge of the first part starts behind it
        rcases (edge_wire hfirst).1 with hstarter | ⟨_, hlt⟩
        · have hlt := Nat.lt_of_lt_of_le (hS _ hstarter) (Nat.le_add_right n e.leafCount)
          exact absurd hle.1 (Nat.not_le.mpr hlt)
        · exact absurd hle.1 (Nat.not_le.mpr hlt)
    | inr hrest =>
      rcases (edge_wire (e := concatenation rest) hrest).2 with hexit | hback | hown
      · exact .inl (h.exits _ hexit)
      · exact absurd hback (by simp)
      · exact .inr hown

mutual

/-- Behind a part that cannot be left out there is a cut. -/
theorem exists_cut : ∀ (e : Extent) (n : Nat) (S : List StateId), (∀ x ∈ S, x < n) →
    (e.positions n).nullable = false → ∃ A, Cut n (n + e.leafCount) (e.wire n S []) A
  | leaf _, n, _, hS, _ => ⟨(· = n), cut_leaf hS⟩
  | concatenation parts, n, S, hS, hnull => exists_cutParts parts n S hS hnull
  | union alternatives, n, S, hS, hnull => by
    obtain ⟨A, hA⟩ := exists_cutAlternatives alternatives n S hS hnull
    exact ⟨A, hA.own, fun x hx => hA.exits x (Arrival.mem_distinct.mp hx), hA.stays⟩
  | repetition body, n, _, _, hnull => by
    rw [positions_repetition] at hnull
    cases hleaf : body.isLeaf <;> rw [hleaf] at hnull <;> exact absurd hnull (by simp [loop, again])

theorem exists_cutParts : ∀ (es : List Extent) (n : Nat) (S : List StateId), (∀ x ∈ S, x < n) →
    (positionsParts es n).nullable = false → ∃ A, Cut n (n + leafCountAll es) (wireParts es n S []) A
  | [], _, _, _, hnull => absurd hnull (by simp [positionsParts, skip])
  | [last], n, S, hS, hnull => by
    have hlast : (last.positions n).nullable = false := by
      simpa [positionsParts, before, skip] using hnull
    exact exists_cut last n S hS hlast
  | e :: e' :: others, n, S, hS, hnull => by
    rw [leafCountAll, ← Nat.add_assoc, wireParts]
    · have hexits : ∀ x ∈ (e.wire n S []).exits, x < n + e.leafCount := by
        intro x hx
        cases exit_cases hx with
        | inl hown => exact hown.2
        | inr hstarter => exact Nat.lt_of_lt_of_le (hS x hstarter) (Nat.le_add_right _ _)
      cases hrest : (positionsParts (e' :: others) (n + e.leafCount)).nullable with
      | true =>
        have hboth : ((e.positions n).nullable && true) = false := hrest ▸ hnull
        have hfirst : (e.positions n).nullable = false := by simpa using hboth
        obtain ⟨A, hA⟩ := exists_cut e n S hS hfirst
        exact ⟨_, hA.append hS⟩
      | false =>
        obtain ⟨A, hA⟩ := exists_cutParts (e' :: others) (n + e.leafCount) _ hexits hrest
        refine ⟨A, fun x hx => ?_, hA.exits, fun edge hedge hsource => ?_⟩
        · exact ⟨Nat.le_trans (Nat.le_add_right _ _) (hA.own x hx).1, (hA.own x hx).2⟩
        · cases List.mem_append.mp hedge with
          | inr hlater => exact hA.stays edge hlater hsource
          | inl hfirst =>
            -- the cut lies behind the first part, and the edges of that start in it or before it
            have hle := (hA.own _ hsource).1
            rcases (edge_wire hfirst).1 with hstarter | ⟨_, hlt⟩
            · have hlt := Nat.lt_of_lt_of_le (hS _ hstarter) (Nat.le_add_right n e.leafCount)
              exact absurd hle (Nat.not_le.mpr hlt)
            · exact absurd hle (Nat.not_le.mpr hlt)
    · simp

theorem exists_cutAlternatives : ∀ (es : List Extent) (n : Nat) (S : List StateId),
    (∀ x ∈ S, x < n) → (positionsAlternatives es n).nullable = false →
    ∃ A, Cut n (n + leafCountAll es) (wireAlternatives es n S []) A
  | [], _, _, _, _ => by
    refine ⟨fun _ => False, fun _ hx => hx.elim, fun x hx => ?_, fun _ _ hsource => hsource.elim⟩
    exact absurd hx (by simp [wireAlternatives])
  | e :: others, n, S, hS, hnull => by
    rw [leafCountAll, ← Nat.add_assoc]
    obtain ⟨hfirst, hrest⟩ := Bool.or_eq_false_iff.mp hnull
    have hS' : ∀ x ∈ S, x < n + e.leafCount := fun x hx =>
      Nat.lt_of_lt_of_le (hS x hx) (Nat.le_add_right _ _)
    obtain ⟨A, hA⟩ := exists_cut e n S hS hfirst
    obtain ⟨B, hB⟩ := exists_cutAlternatives others (n + e.leafCount) S hS' hrest
    refine ⟨fun x => A x ∨ B x, fun x hx => ?_, fun x hx => ?_, fun edge hedge hsource => ?_⟩
    · cases hx with
      | inl hx => exact ⟨(hA.own x hx).1, Nat.lt_of_lt_of_le (hA.own x hx).2 (Nat.le_add_right _ _)⟩
      | inr hx => exact ⟨Nat.le_trans (Nat.le_add_right _ _) (hB.own x hx).1, (hB.own x hx).2⟩
    · exact (List.mem_append.mp hx).imp (hA.exits x) (hB.exits x)
    · -- an edge of one alternative starts at its leaves or before both
      cases List.mem_append.mp hedge with
      | inl hedge =>
        refine .inl (hsource.elim (hA.stays edge hedge) fun hB' => ?_)
        have hle := (hB.own _ hB').1
        rcases (edge_wire hedge).1 with hstarter | ⟨_, hlt⟩
        · exact absurd hle (Nat.not_le.mpr (hS' _ hstarter))
        · exact absurd hle (Nat.not_le.mpr hlt)
      | inr hedge =>
        refine .inr (hsource.elim (fun hA' => ?_) (hB.stays edge hedge))
        obtain ⟨hle, hlt⟩ := hA.own _ hA'
        rcases (edge_wire (e := union others) hedge).1 with hstarter | ⟨hle', _⟩
        · exact absurd hle (Nat.not_le.mpr (hS _ hstarter))
        · exact absurd hle' (Nat.not_le.mpr hlt)

end

/-- If the start state is no exit, no exit leads back to it. -/
theorem not_reaches_start {e : Extent} (h : 0 ∉ e.wiring.exits) {x : StateId}
    (hx : x ∈ e.wiring.exits) : ¬ (ofExtent e).Reaches x 0 := by
  have hnull : (e.positions 1).nullable = false := by
    cases hn : (e.positions 1).nullable with
    | false => rfl
    | true => exact absurd (mem_exits_wiring.mpr (.inr ⟨hn, rfl⟩)) h
  obtain ⟨A, hA⟩ := exists_cut e 1 [0] (by simp) hnull
  have hstays : ∀ y, (ofExtent e).Reaches x y → A y := by
    intro y hreach
    induction hreach with
    | refl => exact hA.exits x hx
    | tail _ hedge ih =>
      obtain ⟨symbol, hedge⟩ := hedge
      exact hA.stays _ (hasEdge_ofExtent.mp hedge).2 ih
  exact fun hreach => absurd (hA.own 0 (hstays 0 hreach)).1 (by decide)

end CaretAutomata.Extent

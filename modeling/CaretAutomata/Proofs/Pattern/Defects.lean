import CaretAutomata.Proofs.Pattern.Refusals
import CaretAutomata.Proofs.Pattern.Derivation
import CaretAutomata.Proofs.Pattern.Spans

/-!
# Structural faults point at a real defect

`parse_fault_points` is that of every structural fault of every pattern, whatever the limits. The
fault belongs to some stretch on the way down (`fault_of_read`), so it is enough that every outline
is sound: the outline of a located stretch names located stretches, and its own fault points into
the text (`sound_outline`).

Two faults rest on what was read before. A marker with nothing in front of it is met only at the
start of the pattern: behind an opening bracket or a bar it is found by the stretch around it, and
behind another marker it does not stand in a collapsed text. And an empty alternative has a bar at
its side, because no empty stretch is ever read.
-/

namespace CaretAutomata.Pattern

open Stretch

/-! ## Outlines -/

/-- Nothing is lost on the way down: the stretches that an outline names are located, and its own
fault points into the text. -/
structure Outline.Sound (text : List Char) (outline : Outline) : Prop where
  located : ∀ inner ∈ outline.stretches, inner.Located text
  points : ∀ fault, outline.fault? = some fault → fault.PointsInto text

theorem sound_of_stretches_eq_nil {text : List Char} {outline : Outline}
    (hnone : outline.stretches = [])
    (h : ∀ fault, outline.fault? = some fault → fault.PointsInto text) : outline.Sound text := by
  refine ⟨?_, h⟩
  intro inner hinner
  rw [hnone] at hinner
  exact absurd hinner List.not_mem_nil

section Sequences

variable {text : List Char} {s : Stretch} {position : Nat} {done : Bracketed}

theorem sound_prepend {part : Part} {behind : List Part × Option StructuralFault}
    (hpart : ∀ inner, part = .nested inner → inner.Located text)
    (h : (Outline.sequence behind.1 behind.2).Sound text) :
    (Outline.sequence (prepend part behind).1 (prepend part behind).2).Sound text := by
  refine ⟨?_, h.points⟩
  intro inner hinner
  obtain ⟨member, hmember, heq⟩ := List.mem_filterMap.mp hinner
  rcases List.mem_cons.mp hmember with rfl | hmember
  · cases member with
    | sign c => exact absurd heq (by simp)
    | repeatedSign c => exact absurd heq (by simp)
    | nested stretch =>
      obtain rfl := Option.some.inj heq
      exact hpart stretch rfl
  · exact h.located inner (List.mem_filterMap.mpr ⟨member, hmember, heq⟩)

/-- A group, with its marker or without, is read as a stretch of its own. -/
theorem sound_prependGroup {inside marker : Bracketed} (left : Bracketed)
    {behind : List Part × Option StructuralFault} (hs : s.Located text)
    (h : s.LeftAt position done ((Bracketed.group inside marker).append left))
    (hbehind : (Outline.sequence behind.1 behind.2).Sound text) :
    (Outline.sequence (s.prependGroup position (.group inside marker) behind).1
      (s.prependGroup position (.group inside marker) behind).2).Sound text := by
  rw [prependGroup]
  cases hmarker : s.markerFault? position (.group inside marker) with
  | some found =>
    apply sound_of_stretches_eq_nil rfl
    intro fault hfault
    obtain rfl : found = fault := Option.some.inj hfault
    exact markerFault?_points h hs hmarker
  | none =>
    have hgroup : (matched position (.group inside marker)).Located text := by
      apply h.located hs (by simp)
      intro hstarts
      exact absurd hstarts (by simp [Bracketed.startsWithMarker])
    refine sound_prepend ?_ hbehind
    intro inner hinner
    obtain rfl := Part.nested.inj hinner
    exact hgroup

/-- Behind a marker stands no other one, where runs are collapsed. -/
theorem not_startsWithMarker_behind_marker {rest : Bracketed} (hruns : ¬ ['^', '^'] <:+: text)
    (hs : s.Located text) (h : s.LeftAt position done (.sign '^' rest)) :
    ¬ rest.startsWithMarker = true := by
  intro hstarts
  obtain ⟨others, rfl⟩ := exists_of_startsWithMarker hstarts
  have hslice : SliceAt text position (['^', '^'] ++ others.spelling) := h.slice hs
  exact hruns hslice.left.isInfix

theorem not_startsWithMarker {rest : Bracketed} (h : ∀ others, rest = .sign '^' others → False) :
    ¬ rest.startsWithMarker = true := by
  intro hstarts
  obtain ⟨others, hrest⟩ := exists_of_startsWithMarker hstarts
  exact h others hrest

/-- The parts of a sequence. Only at the start of the pattern can a marker be met where a part is
expected: every other one was taken with what stands in front of it. -/
theorem sound_parts {left : Bracketed} (hruns : ¬ ['^', '^'] <:+: text) (hs : s.Located text)
    (h : s.LeftAt position done left) (hmarker : left.startsWithMarker = true → position = 0) :
    (Outline.sequence (s.parts position left).1 (s.parts position left).2).Sound text := by
  fun_induction Stretch.parts s position left generalizing done with
  | case1 position =>
    apply sound_of_stretches_eq_nil rfl
    intro fault hfault
    exact tailFault?_points h hs hfault
  | case2 position rest =>
    apply sound_of_stretches_eq_nil rfl
    intro fault hfault
    obtain rfl := Option.some.inj hfault
    exact h.pointsInto hs ['^'] (rest.spelling ++ s.layout.tail) rfl ⟨rfl, hmarker rfl⟩
  | case3 position c rest hc ih =>
    have hmarked : s.LeftAt (position + 1) (done.append (.sign c .nil)) (.sign '^' rest) :=
      h.skip (.sign c .nil)
    have hrest := not_startsWithMarker_behind_marker hruns hs hmarked
    refine sound_prepend (fun inner hinner => absurd hinner (by simp)) ?_
    exact ih (hmarked.skip (.sign '^' .nil)) fun hstarts => absurd hstarts hrest
  | case4 position c rest hc hrest ih =>
    have hrest := not_startsWithMarker hrest
    refine sound_prepend (fun inner hinner => absurd hinner (by simp)) ?_
    exact ih (h.skip (.sign c .nil)) fun hstarts => absurd hstarts hrest
  | case5 position inside rest ih =>
    have hmarked : s.LeftAt (position + inside.width + 2) (done.append (.group inside .nil))
        (.sign '^' rest) := h.skip (.group inside .nil)
    have hrest := not_startsWithMarker_behind_marker hruns hs hmarked
    refine sound_prependGroup rest hs h ?_
    exact ih (hmarked.skip (.sign '^' .nil)) fun hstarts => absurd hstarts hrest
  | case6 position inside rest hrest ih =>
    have hrest := not_startsWithMarker hrest
    refine sound_prependGroup rest hs h ?_
    exact ih (h.skip (.group inside .nil)) fun hstarts => absurd hstarts hrest

end Sequences

section Choices

variable {text : List Char} {s : Stretch} {position : Nat} {done first : Bracketed}

theorem startsWithMarker_joinAtBars (h : first.startsWithMarker = true) (others : List Bracketed) :
    (joinAtBars first others).startsWithMarker = true := by
  obtain ⟨rest, rfl⟩ := exists_of_startsWithMarker h
  cases others <;> rfl

/-- An alternative begins where the stretch begins, or behind a bar. -/
def BeginsAlternative (done : Bracketed) : Prop :=
  done.spelling.getLast? = some '|' ∨ done.spelling = []

theorem beginsAlternative_behind_bar (done : Bracketed) :
    BeginsAlternative (done.append (.sign '|' .nil)) :=
  .inl (by simp)

/-- A missing alternative stands between two bars, or between a bar and an end of the stretch. -/
theorem emptinessFault?_points {others : List Bracketed} (hs : s.Located text)
    (h : s.LeftAt position done (joinAtBars first others)) (hbegins : BeginsAlternative done)
    (hlast : others = [] → s.layout.tail = []) {fault : StructuralFault}
    (hfault : s.emptinessFault? position first = some fault) : fault.PointsInto text := by
  rw [emptinessFault?] at hfault
  split at hfault
  · next hempty =>
    obtain rfl := Option.some.inj hfault
    obtain rfl := Bracketed.isEmpty_iff.mp hempty
    have hdone : IsMatched done.spelling := isMatched_spelling (h.proper hs).1
    cases others with
    | nil =>
      have hspelling : s.layout.spelling = done.spelling := by
        rw [h.spelling_eq, hlast rfl]
        exact List.append_nil _
      -- a stretch is not empty, so what ends here is preceded by a bar
      have hbar : done.spelling.getLast? = some '|' :=
        hbegins.resolve_right fun hnil => hs.ne_nil (hspelling.trans hnil)
      exact h.pointsInto hs [] [] (by rw [hlast rfl]; rfl)
        ⟨rfl, hdone, .inl hbar, .inr rfl, .inl hbar⟩
    | cons second others =>
      exact h.pointsInto hs [] ('|' :: (joinAtBars second others).spelling ++ s.layout.tail) rfl
        ⟨rfl, hdone, hbegins, .inl rfl, .inr rfl⟩
  · exact absurd hfault (by simp)

theorem barFault?_points {second : Bracketed} {others : List Bracketed} (hs : s.Located text)
    (h : s.LeftAt position done (.sign '|' (joinAtBars second others))) {fault : StructuralFault}
    (hfault : s.barFault? position second = some fault) : fault.PointsInto text := by
  rw [barFault?] at hfault
  split at hfault
  · next hstarts =>
    obtain rfl := Option.some.inj hfault
    obtain ⟨rest, hrest⟩ := exists_of_startsWithMarker (startsWithMarker_joinAtBars hstarts others)
    rw [hrest] at h
    have hmarked := h.skip (.sign '|' .nil)
    exact hmarked.pointsInto hs ['^'] (rest.spelling ++ s.layout.tail) rfl ⟨rfl, by simp⟩
  · exact absurd hfault (by simp)

theorem alternativeFault?_eq_some {text : Bracketed} {behind : Option StructuralFault}
    {fault : StructuralFault} (h : s.alternativeFault? position text behind = some fault) :
    s.markerFault? position text = some fault ∨ behind = some fault ∨
      (behind = none ∧ s.emptinessFault? position text = some fault) := by
  rw [alternativeFault?] at h
  cases hmarker : s.markerFault? position text with
  | some found =>
    rw [hmarker] at h
    exact .inl h
  | none =>
    rw [hmarker] at h
    cases behind with
    | some found => exact .inr (.inl h)
    | none => exact .inr (.inr ⟨rfl, h⟩)

theorem exists_joinAtBars (first : Bracketed) (others : List Bracketed) :
    ∃ rest, joinAtBars first others = first.append rest := by
  cases others with
  | nil => exact ⟨.nil, first.append_nil.symm⟩
  | cons second others => exact ⟨.sign '|' (joinAtBars second others), rfl⟩

/-- An alternative with nothing wrong is a stretch of its own. -/
theorem located_alternative {others : List Bracketed} (hs : s.Located text)
    (h : s.LeftAt position done (joinAtBars first others)) (hne : first ≠ .nil)
    (hmarker : first.startsWithMarker = true → position = 0) :
    (matched position first).Located text := by
  obtain ⟨rest, hrest⟩ := exists_joinAtBars first others
  rw [hrest] at h
  exact h.located hs hne hmarker

/-- What is wrong with an alternative points into the text, if what is wrong behind it does. -/
theorem alternativeFault?_points {others : List Bracketed} {behind : Option StructuralFault}
    (hs : s.Located text) (h : s.LeftAt position done (joinAtBars first others))
    (hbegins : BeginsAlternative done)
    (hbehind : ∀ fault, behind = some fault → fault.PointsInto text)
    (hlast : others = [] → behind = none → s.layout.tail = []) {fault : StructuralFault}
    (hfault : s.alternativeFault? position first behind = some fault) : fault.PointsInto text := by
  rcases alternativeFault?_eq_some hfault with hmarker | hbehind' | ⟨hnone, hempty⟩
  · obtain ⟨rest, hrest⟩ := exists_joinAtBars first others
    rw [hrest] at h
    exact markerFault?_points h hs hmarker
  · exact hbehind fault hbehind'
  · exact emptinessFault?_points hs h hbegins (fun hothers => hlast hothers hnone) hempty

theorem sound_alternatives (hs : s.Located text) : ∀ {others : List Bracketed} {position : Nat}
    {done first : Bracketed} {stretches : List Stretch} {fault : Option StructuralFault},
    s.LeftAt position done (joinAtBars first others) → BeginsAlternative done →
    (first.startsWithMarker = true → position = 0) →
    s.alternatives position first others = (stretches, fault) →
    (Outline.choice stretches fault).Sound text
  | [], position, done, first, stretches, fault, hleft, hbegins, hmarker, h => by
    have hend : s.LeftAt (position + first.width) (done.append first) .nil :=
      LeftAt.skip first (by rw [first.append_nil]; exact hleft)
    rw [Stretch.alternatives] at h
    split at h
    · next found hfound =>
      obtain ⟨rfl, rfl⟩ := Prod.mk.inj h
      have htail : s.tailFault? (position + first.width) = none → s.layout.tail = [] := by
        intro hnone
        obtain ⟨hstrays, hunclosed⟩ := isComplete_of_tailFault? hnone
        rw [Layout.tail, hstrays, hunclosed]
        rfl
      apply sound_of_stretches_eq_nil rfl
      intro fault hfault
      obtain rfl : found = fault := Option.some.inj hfault
      exact alternativeFault?_points hs hleft hbegins
        (fun _ hbehind => tailFault?_points hend hs hbehind) (fun _ => htail) hfound
    · next hnone =>
      obtain ⟨rfl, rfl⟩ := Prod.mk.inj h
      obtain ⟨-, hne⟩ := alternativeFault?_eq_none hnone
      constructor
      · intro inner hinner
        obtain rfl := List.mem_singleton.mp hinner
        exact located_alternative hs hleft hne hmarker
      · intro fault hfault
        exact absurd hfault (by simp [Outline.fault?])
  | second :: others, position, done, first, stretches, fault, hleft, hbegins, hmarker, h => by
    have hbar : s.LeftAt (position + first.width) (done.append first)
        (.sign '|' (joinAtBars second others)) := hleft.skip first
    rw [Stretch.alternatives] at h
    split at h
    · next found hfound =>
      obtain ⟨rfl, rfl⟩ := Prod.mk.inj h
      apply sound_of_stretches_eq_nil rfl
      intro fault hfault
      obtain rfl : found = fault := Option.some.inj hfault
      exact alternativeFault?_points hs hleft hbegins
        (fun _ hbehind => barFault?_points hs hbar hbehind) (fun hnil => absurd hnil (by simp))
        hfound
    · next hnone =>
      obtain ⟨rfl, rfl⟩ := Prod.mk.inj h
      obtain ⟨hnobar, hne⟩ := alternativeFault?_eq_none hnone
      have hsecond : second.startsWithMarker = true → position + first.width + 1 = 0 := by
        intro hstarts
        exact absurd hnobar (by simp [barFault?, hstarts])
      have hrest := sound_alternatives hs (hbar.skip (.sign '|' .nil))
        (beginsAlternative_behind_bar _) hsecond (Prod.ext rfl rfl)
      refine ⟨?_, hrest.points⟩
      intro inner hinner
      rcases List.mem_cons.mp hinner with rfl | hinner
      · exact located_alternative hs hleft hne hmarker
      · exact hrest.located inner hinner

end Choices

section Brackets

theorem openMarkerAt_of_openBrackets {b : Bracketed} {start position : Nat}
    (h : openBrackets start b = .error position) :
    ∃ distance, OpenMarkerAt b.spelling distance ∧ position = start + distance := by
  fun_induction openBrackets start b with
  | case1 start inside hmarker =>
    obtain rfl : start + 1 = position := Except.error.inj h
    exact ⟨1, openMarkerAt_group hmarker .nil, rfl⟩
  | case2 start inside hmarker ih =>
    obtain ⟨distance, hinside, rfl⟩ := ih h
    refine ⟨distance + 1, ?_, by omega⟩
    rw [Bracketed.spelling_group]
    exact (hinside.append_right _).cons '('
  | case3 start b hne => exact absurd h (by simp)

/-- Brackets that are left out stand around the rest, as many on each side. A marker can come to the
front only where it stood there already. -/
theorem openBrackets_eq_ok {b : Bracketed} {start : Nat} {opened : Stretch}
    (h : openBrackets start b = .ok opened) : ∃ k nodes, opened = matched (start + k) nodes ∧
      b.spelling = List.replicate k '(' ++ (nodes.spelling ++ List.replicate k ')') ∧
      (nodes.startsWithMarker = true → k = 0 ∧ nodes = b) := by
  fun_induction openBrackets start b with
  | case1 start inside hmarker => exact absurd h (by simp)
  | case2 start inside hmarker ih =>
    obtain ⟨k, nodes, rfl, hspelling, hstarts⟩ := ih h
    refine ⟨k + 1, nodes, ?_, ?_, ?_⟩
    · rw [Nat.add_assoc, Nat.add_comm 1 k]
    · rw [Bracketed.spelling_group, hspelling, List.replicate_succ, List.replicate_succ']
      simp
    · intro hnodes
      obtain ⟨-, rfl⟩ := hstarts hnodes
      exact absurd hnodes hmarker
  | case3 start b hne =>
    obtain rfl := Except.ok.inj h
    exact ⟨0, b, rfl, by simp, fun _ => ⟨rfl, rfl⟩⟩

end Brackets

section Outlines

variable {text : List Char} {s : Stretch}

theorem sound_inner (hruns : ¬ ['^', '^'] <:+: text) (hs : s.Located text) :
    s.inner.Sound text := by
  rw [Stretch.inner]
  split
  · have hcut := joinAtBars_splitAtBars s.layout.nodes
    have hleft : s.LeftAt s.start .nil
        (joinAtBars s.layout.nodes.splitAtBars.1 s.layout.nodes.splitAtBars.2) := by
      rw [hcut]
      exact leftAt_start s
    have hmarker : s.layout.nodes.splitAtBars.1.startsWithMarker = true → s.start = 0 := by
      intro hstarts
      have hjoined := startsWithMarker_joinAtBars hstarts s.layout.nodes.splitAtBars.2
      rw [hcut] at hjoined
      exact hs.marker hjoined
    exact sound_alternatives hs hleft (.inr rfl) hmarker (Prod.ext rfl rfl)
  · exact sound_parts hruns hs (leftAt_start s) hs.marker

theorem sound_faulty {fault : StructuralFault} (h : fault.PointsInto text) :
    (Outline.faulty fault).Sound text := by
  apply sound_of_stretches_eq_nil rfl
  intro found hfound
  obtain rfl : fault = found := Option.some.inj hfound
  exact h

/-- A fault of all of a stretch. -/
theorem Stretch.Located.pointsInto_whole (hs : s.Located text) {defect : Defect}
    (h : defect.StandsAt s.start [] s.layout.spelling []) :
    (s.fault defect s.span).PointsInto text :=
  hs.pointsInto [] s.layout.spelling [] (List.append_nil _).symm h

theorem sound_repeatedGroup {result : Except StructuralFault Stretch} (hs : s.Located text)
    (h : s.repeatedGroup? = some result) :
    (match result with
      | .error fault => Outline.faulty fault
      | .ok body => Outline.repetition body).Sound text := by
  obtain ⟨inside, hlayout, hcases⟩ := repeatedGroup?_cases h
  have hspelling : s.layout.spelling = (Bracketed.group inside (.sign '^' .nil)).spelling := by
    rw [hlayout]
    exact List.append_nil _
  rcases hcases with ⟨rfl, rfl⟩ | ⟨hmarker, rfl⟩ | ⟨hne, hmarker, rfl⟩
  · exact sound_faulty (hs.pointsInto_whole ⟨rfl, hspelling, rfl⟩)
  · refine sound_faulty (hs.pointsInto_marker ?_)
    rw [hspelling]
    exact openMarkerAt_group hmarker _
  · have hproper := hs.proper
    have hslice := hs.slice
    rw [hlayout] at hproper
    rw [hspelling, Bracketed.spelling_group, ← List.singleton_append] at hslice
    have hbody : (matched (s.start + 1) inside).Located text := by
      apply located_matched hslice.right.left hne hproper.1
      intro hstarts
      exact absurd hstarts (by simp [hmarker])
    constructor
    · intro inner hinner
      obtain rfl := List.mem_singleton.mp hinner
      exact hbody
    · intro fault hfault
      exact absurd hfault (by simp [Outline.fault?])

/-- Without the brackets around it, what is left of a stretch is located as well. -/
theorem sound_opened {opened : Stretch} (hruns : ¬ ['^', '^'] <:+: text) (hs : s.Located text)
    (hcomplete : s.layout.isComplete = true)
    (h : openBrackets s.start s.layout.nodes = .ok opened) :
    (if opened.layout.nodes.isEmpty then Outline.faulty (s.fault .emptyGroup s.span)
      else opened.inner).Sound text := by
  have hwhole : s.layout.spelling = s.layout.nodes.spelling := by
    rw [layout_eq_of_isComplete hcomplete]
    exact List.append_nil _
  have hproper := (opensTo_of_openBrackets h).proper hs.proper
  obtain ⟨k, nodes, rfl, hspelling, hstarts⟩ := openBrackets_eq_ok h
  have hslice := hs.slice
  have hne := hs.ne_nil
  rw [hwhole, hspelling] at hslice hne
  split
  · next hempty =>
    obtain rfl := Bracketed.isEmpty_iff.mp hempty
    refine sound_faulty (hs.pointsInto_whole ⟨rfl, rfl, k, ?_, hwhole.trans hspelling⟩)
    -- a stretch is not empty, so there were brackets
    apply Nat.pos_of_ne_zero
    rintro rfl
    exact hne rfl
  · next hempty =>
    have hinside := hslice.right.left
    rw [List.length_replicate] at hinside
    have hnodes : nodes ≠ .nil := fun hnil => hempty (Bracketed.isEmpty_iff.mpr hnil)
    apply sound_inner hruns
    apply located_matched hinside hnodes hproper
    intro hmarker
    obtain ⟨rfl, rfl⟩ := hstarts hmarker
    exact hs.marker hmarker

theorem sound_outline (hruns : ¬ ['^', '^'] <:+: text) (hs : s.Located text) :
    s.outline.Sound text := by
  rw [outline]
  split
  · next fault hgroup => exact sound_repeatedGroup hs hgroup
  · next body hgroup => exact sound_repeatedGroup hs hgroup
  · split
    · next hcomplete =>
      split
      · next position hopen =>
        obtain ⟨distance, hmarker, rfl⟩ := openMarkerAt_of_openBrackets hopen
        refine sound_faulty (hs.pointsInto_marker ?_)
        rw [layout_eq_of_isComplete hcomplete]
        exact hmarker.append_right []
      · next opened hopen => exact sound_opened hruns hs hcomplete hopen
    · exact sound_inner hruns hs

end Outlines

/-- **A structural fault points at a real defect.** Whatever the pattern and the limits, the
fragment is a part of the collapsed pattern, the span lies in it, and the defect stands there. -/
theorem parse_fault_points {limits : Limits} {pattern : String} {fault : StructuralFault}
    (h : parse limits pattern = .error (.structural fault)) :
    fault.PointsInto (collapse pattern.toList) := by
  by_cases hlength : limits.maxLength < pattern.length
  · rw [parse_eq_tooLong_iff.mpr ⟨hlength, rfl, rfl⟩] at h
    exact absurd h (by simp)
  by_cases hne : pattern.toList = []
  · rw [parse_of_toList_eq_nil hne] at h
    exact absurd h (by simp)
  rw [parse_eq_read (Nat.not_lt.mp hlength) hne] at h
  have hruns := not_infix_collapse pattern.toList
  rcases fault_of_read (fun s hs => (sound_outline hruns hs).located) (located_ofText hne) h with
    h | ⟨s, own, hs, hown, h⟩
  · exact absurd h (by simp)
  · obtain rfl := Fault.structural.inj h
    exact (sound_outline hruns hs).points fault hown

/-- An alternative that is missing two groups deep: nothing stands at 6, behind the bar of `b|`. -/
theorem parse_fault_points_in_group :
    parse ⟨16, 4⟩ "(a|(b|)c)" = .error (.structural ⟨.emptyAlternative, ⟨6, 6⟩, "b|"⟩) ∧
      StructuralFault.PointsInto (collapse "(a|(b|)c)".toList)
        ⟨.emptyAlternative, ⟨6, 6⟩, "b|"⟩ := by
  have h : parse ⟨16, 4⟩ "(a|(b|)c)" = .error (.structural ⟨.emptyAlternative, ⟨6, 6⟩, "b|"⟩) := rfl
  exact ⟨h, parse_fault_points h⟩

end CaretAutomata.Pattern

import CaretAutomata.Proofs.Pattern.ScannedOutline

/-!
# A reading goes down

What a stretch is made of lies inside it, and is shorter (`inside_of_mem_stretches`). For one group
this is not plain. A sequence can be a single group, and its part is then all of what is left of the
stretch. But where brackets were left out the stretch is longer than what is left of it, and where
none were the group is neither plain, or its brackets would have been, nor repeated, or it would
have been taken for the repetition that it is.

So each stretch that is called for is shorter than the one that calls for it (`Call`), and a reading
ends without any limit on its depth. That `calls` are the calls of `read` is shown by a reading that
writes them down, in `RecordedReading.lean`.
-/

namespace CaretAutomata.Pattern

open Stretch

/-! ## What lies inside a stretch -/

/-- A part of a stretch, and not all of it. -/
structure Stretch.Inside (inner s : Stretch) : Prop where
  start_le : s.start ≤ inner.start
  stop_le : inner.stop ≤ s.stop
  shorter : s.start < inner.start ∨ inner.stop < s.stop

/-- A single group, with a marker behind it or without. -/
def Bracketed.IsLoneGroup (b : Bracketed) : Prop :=
  ∃ inside starred, b = .group inside (markerOnto starred .nil)

section Inside

variable {s inner : Stretch} {position : Nat}

theorem stop_matched (position : Nat) (b : Bracketed) :
    (matched position b).stop = position + b.width := by
  rw [Stretch.stop, spelling_matched, Bracketed.length_spelling]
  rfl

/-- A group with something behind it, or behind its marker, is more than a group. -/
theorem isLoneGroup_or_width_pos (inside : Bracketed) (starred : Bool) (rest : Bracketed) :
    (Bracketed.group inside (markerOnto starred rest)).IsLoneGroup ∨ 0 < rest.width := by
  cases hwidth : rest.width with
  | zero =>
    obtain rfl := Bracketed.isEmpty_iff.mp (isEmpty_iff_width.mpr hwidth)
    exact .inl ⟨inside, starred, rfl⟩
  | succ _ => exact .inr (Nat.succ_pos _)

theorem mem_prependGroup {group : Bracketed} {behind : List Part × Option StructuralFault}
    (h : .nested inner ∈ (s.prependGroup position group behind).1) :
    inner = matched position group ∨ .nested inner ∈ behind.1 := by
  rw [prependGroup] at h
  split at h
  · exact absurd h List.not_mem_nil
  · rcases List.mem_cons.mp h with h | h
    · exact .inl (Part.nested.inj h)
    · exact .inr h

/-- A group is shorter than it and what stands behind it, unless nothing does; a group behind it is
shorter anyway. -/
theorem bounds_of_mem_prependGroup (inside : Bracketed) (starred : Bool) (rest : Bracketed)
    {behind : List Part × Option StructuralFault}
    (h : .nested inner ∈
      (s.prependGroup position (.group inside (markerOnto starred .nil)) behind).1)
    (hbehind : .nested inner ∈ behind.1 → position < inner.start ∧
      inner.stop ≤ position + (Bracketed.group inside (markerOnto starred rest)).width) :
    position ≤ inner.start ∧
      inner.stop ≤ position + (Bracketed.group inside (markerOnto starred rest)).width ∧
      ((Bracketed.group inside (markerOnto starred rest)).IsLoneGroup ∨ position < inner.start ∨
        inner.stop < position + (Bracketed.group inside (markerOnto starred rest)).width) := by
  rcases mem_prependGroup h with rfl | h
  · have hshorter := isLoneGroup_or_width_pos inside starred rest
    have hwidth : (Bracketed.group inside (markerOnto starred rest)).width =
        (Bracketed.group inside (markerOnto starred .nil)).width + rest.width := by
      cases starred with
      | false => exact Nat.add_right_comm _ _ _
      | true =>
        simp only [markerOnto, if_true, Bracketed.width]
        omega
    rw [stop_matched, hwidth]
    exact ⟨Nat.le_refl _, by omega, hshorter.imp_right fun _ => .inr (by omega)⟩
  · obtain ⟨hstart, hstop⟩ := hbehind h
    exact ⟨Nat.le_of_lt hstart, hstop, .inr (.inl hstart)⟩

/-- A group of a sequence is shorter than the sequence, unless it is all of it. -/
theorem bounds_of_mem_parts {b : Bracketed} (h : .nested inner ∈ (s.parts position b).1) :
    position ≤ inner.start ∧ inner.stop ≤ position + b.width ∧
      (b.IsLoneGroup ∨ position < inner.start ∨ inner.stop < position + b.width) := by
  fun_induction Stretch.parts s position b with
  | case1 position => exact absurd h List.not_mem_nil
  | case2 position rest => exact absurd h List.not_mem_nil
  | case3 position c rest _ ih | case4 position c rest _ _ ih =>
    cases h with
    | tail _ h =>
      have := ih h
      simp only [Bracketed.width]
      omega
  | case5 position inside rest ih =>
    apply bounds_of_mem_prependGroup inside true rest h
    intro h
    have := ih h
    simp only [markerOnto, if_true, Bracketed.width] at this ⊢
    omega
  | case6 position inside rest _ ih =>
    apply bounds_of_mem_prependGroup inside false rest h
    intro h
    have := ih h
    simp only [markerOnto, Bool.false_eq_true, if_false, Bracketed.width] at this ⊢
    omega

/-- An alternative is shorter than the choice, unless it is the only one. -/
theorem bounds_of_mem_alternatives : ∀ {others : List Bracketed} {position : Nat}
    {first : Bracketed}, inner ∈ (s.alternatives position first others).1 →
    position ≤ inner.start ∧ inner.stop ≤ position + (joinAtBars first others).width ∧
      (others = [] ∨ position < inner.start ∨
        inner.stop < position + (joinAtBars first others).width)
  | [], position, first, h => by
    rw [Stretch.alternatives] at h
    split at h
    · exact absurd h List.not_mem_nil
    · rw [List.mem_singleton.mp h, stop_matched]
      exact ⟨Nat.le_refl _, Nat.le_refl _, .inl rfl⟩
  | second :: others, position, first, h => by
    rw [joinAtBars, Bracketed.width_append, Bracketed.width]
    rw [Stretch.alternatives] at h
    split at h
    · exact absurd h List.not_mem_nil
    · rcases List.mem_cons.mp h with rfl | h
      · rw [stop_matched]
        simp only [matched]
        omega
      · have := bounds_of_mem_alternatives h
        omega

/-- Without a bar outside all groups there is but one piece. -/
theorem hasBar_of_splitAtBars (hs : s.layout.nodes.Proper)
    (h : s.layout.nodes.splitAtBars.2 = []) : s.layout.nodes.hasBar = false := by
  have hcut := joinAtBars_splitAtBars s.layout.nodes
  rw [h] at hcut
  rw [← hcut]
  exact (piece_splitAtBars hs).1.hasBar

theorem Stretch.stop_eq (s : Stretch) :
    s.stop = s.start + s.layout.nodes.width + s.layout.tail.length := by
  rw [Stretch.stop, Layout.spelling, List.length_append, Bracketed.length_spelling, Nat.add_assoc]

/-- What a stretch without brackets around it is made of lies inside it, unless the stretch is a
single group. -/
theorem bounds_of_mem_inner (hs : s.layout.nodes.Proper) (h : inner ∈ s.inner.stretches) :
    s.start ≤ inner.start ∧ inner.stop ≤ s.stop ∧
      ((s.layout.tail = [] ∧ s.layout.nodes.IsLoneGroup) ∨
        s.start < inner.start ∨ inner.stop < s.stop) := by
  have hstop := s.stop_eq
  have hlonger : s.layout.tail ≠ [] → s.start + s.layout.nodes.width < s.stop := by
    intro htail
    have := List.length_pos_iff.mpr htail
    omega
  rw [Stretch.inner] at h
  split at h
  · next hchoice =>
    obtain ⟨hstart, hle, hshorter⟩ := bounds_of_mem_alternatives h
    rw [joinAtBars_splitAtBars] at hle hshorter
    refine ⟨hstart, by omega, .inr ?_⟩
    rcases hshorter with hnone | hshorter
    · -- with one piece only, the bar stands behind the matched text
      have htail : s.layout.tail ≠ [] := by
        intro hnil
        rw [isChoice, hasBar_of_splitAtBars hs hnone, hnil] at hchoice
        exact absurd hchoice (by decide)
      have := hlonger htail
      omega
    · omega
  · obtain ⟨part, hpart, hinner⟩ := List.mem_filterMap.mp h
    cases part with
    | sign c => exact absurd hinner (by simp)
    | repeatedSign c => exact absurd hinner (by simp)
    | nested stretch =>
      obtain rfl : stretch = inner := Option.some.inj hinner
      obtain ⟨hstart, hle, hshorter⟩ := bounds_of_mem_parts hpart
      refine ⟨hstart, by omega, ?_⟩
      rcases hshorter with hgroup | hshorter
      · by_cases htail : s.layout.tail = []
        · exact .inl ⟨htail, hgroup⟩
        · have := hlonger htail
          exact .inr (.inr (by omega))
      · exact .inr (by omega)

/-- Brackets around everything leave something shorter, or there were none. -/
theorem bounds_of_openBrackets {b : Bracketed} {start : Nat} {opened : Stretch}
    (h : openBrackets start b = .ok opened) : opened = matched start b ∨
      (start < opened.start ∧ opened.stop < start + b.width) := by
  fun_induction openBrackets start b with
  | case1 start inside hmarker => exact absurd h (by simp)
  | case2 start inside hmarker ih =>
    right
    rw [Bracketed.width, Bracketed.width]
    rcases ih h with rfl | hbounds
    · rw [stop_matched]
      simp only [matched]
      omega
    · omega
  | case3 start b hne => exact .inl (Except.ok.inj h).symm

theorem isComplete_of_tail {l : Layout} (h : l.tail = []) : l.isComplete = true := by
  obtain ⟨nodes, strays, unclosed⟩ := l
  cases strays with
  | cons after strays => exact absurd h (by simp [Layout.tail, Layout.spellStrays])
  | nil =>
    cases unclosed with
    | none => rfl
    | some rest => exact absurd h (by simp [Layout.tail, Layout.spellStrays, Layout.spellUnclosed])

theorem eq_matched (h : s.layout.isComplete = true) : s = matched s.start s.layout.nodes := by
  obtain ⟨start, layout⟩ := s
  exact congrArg (Stretch.mk start) (layout_eq_of_isComplete h)

/-- A single group that no brackets enclose is a repeated one, and taken as such before. -/
theorem not_isLoneGroup_of_openBrackets {start : Nat} {b : Bracketed}
    (hgroup : (matched start b).repeatedGroup? = none)
    (hopen : openBrackets start b = .ok (matched start b)) : ¬ b.IsLoneGroup := by
  rintro ⟨inside, starred, rfl⟩
  cases starred with
  | false => exact (opensTo_of_openBrackets hopen).not_group inside rfl
  | true => exact absurd hgroup (by simp [repeatedGroup?, matched, markerOnto])

/-- **The stretches that an outline names lie inside the stretch, and are shorter.** -/
theorem inside_of_mem_stretches (hs : s.layout.nodes.Proper) (h : inner ∈ s.outline.stretches) :
    inner.Inside s := by
  rw [outline] at h
  split at h
  · exact absurd h List.not_mem_nil
  · next body hgroup =>
    obtain ⟨inside, hlayout, rfl⟩ := repeatedGroup_eq hgroup
    have hstop := s.stop_eq
    rw [hlayout] at hstop
    simp only [Bracketed.width] at hstop
    rw [List.mem_singleton.mp h]
    refine ⟨Nat.le_add_right _ 1, ?_, .inl (Nat.lt_succ_self _)⟩
    rw [stop_matched]
    omega
  · next hnone =>
    split at h
    · next hcomplete =>
      split at h
      · exact absurd h List.not_mem_nil
      · next opened hopen =>
        split at h
        · exact absurd h List.not_mem_nil
        · have hproper := (opensTo_of_openBrackets hopen).proper hs
          obtain ⟨hstart, hle, hshorter⟩ := bounds_of_mem_inner hproper h
          have hwhole := eq_matched hcomplete
          have hstop : s.stop = s.start + s.layout.nodes.width := by
            rw [hwhole]
            exact stop_matched _ _
          rcases bounds_of_openBrackets hopen with rfl | hopened
          · rw [stop_matched] at hle hshorter
            rw [hwhole] at hnone
            rcases hshorter with ⟨-, hlone⟩ | hshorter
            · exact absurd hlone (not_isLoneGroup_of_openBrackets hnone hopen)
            · exact ⟨hstart, by omega, by rw [hstop]; exact hshorter⟩
          · exact ⟨by omega, by omega, .inl (by omega)⟩
    · next hincomplete =>
      obtain ⟨hstart, hle, ⟨htail, -⟩ | hshorter⟩ := bounds_of_mem_inner hs h
      · exact absurd (isComplete_of_tail htail) hincomplete
      · exact ⟨hstart, hle, hshorter⟩

end Inside

/-! ## The calls of a reading -/

/-- A stretch is read for the sake of another one. -/
structure Call where
  caller : Visit
  callee : Visit
  deriving DecidableEq, Repr

/-- The calls that `read` makes, in its order. The last one may be for a stretch that lies too deep
to be read. -/
def calls (limit : Nat) : (budget : Nat) → Stretch → List Call
  | 0, _ => []
  | budget + 1, s =>
    let succeeds (inside : Stretch) := (read limit budget inside).isOk
    (throughFirstFailure succeeds s.outline.stretches).flatMap fun inner =>
      ⟨⟨s, limit - budget⟩, ⟨inner, limit - budget + 1⟩⟩ :: calls limit budget inner

/-- The stretches that a reading comes to are the one it begins with and those it calls for, apart
from one that lies too deep. -/
theorem visits_eq_calls {limit : Nat} : ∀ {budget : Nat} (s : Stretch), budget < limit →
    visits limit (budget + 1) s = ⟨s, limit - budget⟩ ::
      ((calls limit (budget + 1) s).map Call.callee).filter (·.depth ≤ limit) := by
  intro budget
  induction budget with
  | zero =>
    intro s hlt
    have hdeep : ¬ limit - 0 + 1 ≤ limit := by omega
    rw [visits, calls, List.map_flatMap, List.filter_flatMap]
    congr 1
    apply congrArg (List.flatMap · _)
    funext inner
    simp [visits, calls]
  | succ budget ih =>
    intro s hlt
    have hdepth : limit - (budget + 1) + 1 = limit - budget := by omega
    rw [visits, calls, List.map_flatMap, List.filter_flatMap]
    congr 1
    apply congrArg (List.flatMap · _)
    funext inner
    rw [ih inner (by omega), List.map_cons, hdepth, List.filter_cons_of_pos]
    simp

theorem called_of_mem_visits {limit : Nat} {s : Stretch} {visit : Visit}
    (h : visit ∈ visits limit limit s) :
    visit.stretch = s ∨ ∃ call ∈ calls limit limit s, visit = call.callee := by
  cases limit with
  | zero => exact absurd h List.not_mem_nil
  | succ limit =>
    rw [visits_eq_calls s (Nat.lt_succ_self limit)] at h
    rcases List.mem_cons.mp h with rfl | h
    · exact .inl rfl
    · obtain ⟨call, hcall, rfl⟩ := List.mem_map.mp (List.mem_filter.mp h).1
      exact .inr ⟨call, hcall, rfl⟩

theorem mem_of_mem_throughFirstFailure {α : Type} {good : α → Bool} {x : α} : ∀ {xs : List α},
    x ∈ throughFirstFailure good xs → x ∈ xs
  | [], h => h
  | [last], h => h
  | y :: z :: others, h => by
    rw [throughFirstFailure] at h
    split at h
    · rcases List.mem_cons.mp h with rfl | h
      · exact .head _
      · exact .tail _ (mem_of_mem_throughFirstFailure h)
    · rw [List.mem_singleton.mp h]
      exact .head _
    · simp

/-- What outlines hand on to the stretches they name is known of all calls. -/
theorem of_mem_calls {limit : Nat} {P : Stretch → Prop}
    (hP : ∀ s, P s → ∀ inner ∈ s.outline.stretches, P inner) : ∀ {budget : Nat} {s : Stretch}
    {call : Call}, P s → call ∈ calls limit budget s →
    P call.caller.stretch ∧ call.callee.stretch ∈ call.caller.stretch.outline.stretches := by
  intro budget
  induction budget with
  | zero =>
    intro s call _ h
    exact absurd h List.not_mem_nil
  | succ budget ih =>
    intro s call hs h
    obtain ⟨inner, hinner, h⟩ := List.mem_flatMap.mp h
    have hinner := mem_of_mem_throughFirstFailure hinner
    rcases List.mem_cons.mp h with rfl | h
    · exact ⟨hs, hinner⟩
    · exact ih (hP s hs inner hinner) h

/-! ## A reading stays in its text -/

/-- What is known of a stretch that is called for: where it lies, and that it is cut at its
brackets. -/
structure Stretch.CalledIn (text : List Char) (s : Stretch) : Prop where
  located : s.Located text
  cut : s.CutFrom text

theorem calledIn_ofText {text : List Char} (hne : text ≠ []) :
    (Stretch.ofText text).CalledIn (collapse text) := by
  refine ⟨located_ofText hne, (located_ofText hne).slice, ?_⟩
  show Layout.ofText _ = Layout.ofText (Layout.ofText _).spelling
  rw [Layout.spelling_ofText]

section Called

variable {text : List Char} {s inner : Stretch}

theorem Stretch.CalledIn.named (hruns : ¬ ['^', '^'] <:+: text) (hs : s.CalledIn text)
    (h : inner ∈ s.outline.stretches) : inner.CalledIn text := by
  have hlocated := (sound_outline hruns hs.located).located inner h
  have hcomplete := isComplete_of_mem_stretches h
  refine ⟨hlocated, hlocated.slice, ?_⟩
  rw [spelling_of_isComplete hcomplete, Layout.ofText_spelling hlocated.proper]
  exact layout_eq_of_isComplete hcomplete

theorem Stretch.CalledIn.start_lt_stop (hs : s.CalledIn text) : s.start < s.stop :=
  Nat.lt_of_le_of_ne (Nat.le_add_right ..) fun h => hs.located.ne_nil (start_eq_stop_iff.mp h)

theorem Stretch.CalledIn.stop_le (hs : s.CalledIn text) : s.stop ≤ text.length :=
  hs.cut.slice.le_length

theorem Stretch.CalledIn.slice? (hs : s.CalledIn text) :
    slice? text s.start s.stop = some s.layout.spelling :=
  slice?_of_ahead hs.cut.ahead

theorem Stretch.CalledIn.balanced (hs : s.CalledIn text) (h : s.layout.isComplete = true) :
    Balanced s.layout.spelling := by
  have hlayout := layout_eq_of_isComplete h
  rw [hs.cut.layout] at hlayout
  apply Unmatched.balanced_of_complete
  · rw [hlayout]
  · rw [hlayout]

/-- **With a level of depth for each character, no stretch lies too deep.** -/
theorem read_ne_tooDeep (hruns : ¬ ['^', '^'] <:+: text) {limit limit' : Nat} :
    ∀ {budget : Nat} {s : Stretch}, s.CalledIn text → s.stop ≤ s.start + budget →
      read limit budget s ≠ .error (.tooDeep limit') := by
  intro budget
  induction budget with
  | zero =>
    intro s hs hbudget
    exact absurd hs.start_lt_stop (Nat.not_lt.mpr hbudget)
  | succ budget ih =>
    intro s hs hbudget h
    rw [read_succ] at h
    rcases Outline.readWith_eq_error h with ⟨own, -, hown⟩ | ⟨inner, hinner, h⟩
    · exact absurd hown (by simp)
    · obtain ⟨hstart, hstop, hshorter⟩ := inside_of_mem_stretches hs.cut.proper hinner
      exact ih (hs.named hruns hinner) (by omega) h

end Called

/-- A pattern that is not empty is read in its collapsed text. -/
theorem parse_ne_tooDeep {limits : Limits} {pattern : String}
    (hdepth : (collapse pattern.toList).length ≤ limits.maxDepth) (limit : Nat) :
    parse limits pattern ≠ .error (.tooDeep limit) := by
  intro h
  by_cases hlength : limits.maxLength < pattern.length
  · rw [parse_eq_tooLong_iff.mpr ⟨hlength, rfl, rfl⟩] at h
    exact absurd h (by simp)
  by_cases hne : pattern.toList = []
  · rw [parse_of_toList_eq_nil hne] at h
    exact absurd h (by simp)
  rw [parse_eq_read (Nat.not_lt.mp hlength) hne] at h
  apply read_ne_tooDeep (not_infix_collapse pattern.toList) (calledIn_ofText hne) _ h
  rw [Stretch.stop, Stretch.ofText, Layout.spelling_ofText]
  omega

/-- **A reading goes down and never leaves its text.** It begins with all of it. Every stretch that
is called for is not empty, lies in the one that calls for it, is shorter than that, and has all its
brackets matched. A scan of any of them by positions finds its outline, so it never goes out of
range, lowers the count below zero, or meets the end of a group that it has not seen begin. No
limit on the depth is needed: one level for each character is always enough. -/
theorem reading_goes_down (limits : Limits) (pattern : String) :
    let text := collapse pattern.toList
    let whole := Stretch.ofText pattern.toList
    let made := calls limits.maxDepth limits.maxDepth whole
    (pattern ≠ "" →
      (whole.start = 0 ∧ whole.start < whole.stop ∧ whole.stop = text.length) ∧
      (∀ visit ∈ visits limits.maxDepth limits.maxDepth whole,
        visit.stretch = whole ∨ ∃ call ∈ made, visit = call.callee) ∧
      (∀ call ∈ made,
        let caller := call.caller.stretch
        let callee := call.callee.stretch
        caller.start ≤ callee.start ∧ callee.start < callee.stop ∧ callee.stop ≤ caller.stop ∧
          caller.stop ≤ text.length ∧
          callee.stop - callee.start < caller.stop - caller.start ∧
          ∃ part, slice? text callee.start callee.stop = some part ∧ Balanced part) ∧
      (∀ s, s = whole ∨ (∃ call ∈ made, s = call.callee.stretch) →
        outlineBetween? text s.start s.stop = some s.outline)) ∧
    (text.length ≤ limits.maxDepth → ∀ limit, parse limits pattern ≠ .error (.tooDeep limit)) := by
  intro text whole made
  refine ⟨fun hne => ?_, parse_ne_tooDeep⟩
  have hnil : pattern.toList ≠ [] := fun h => hne (String.toList_eq_nil_iff.mp h)
  have hruns : ¬ ['^', '^'] <:+: text := not_infix_collapse pattern.toList
  have hwhole : whole.CalledIn text := calledIn_ofText hnil
  have hinner : ∀ s : Stretch, s.CalledIn text → ∀ inner ∈ s.outline.stretches,
      inner.CalledIn text := fun s hs inner h => hs.named hruns h
  have hmade : ∀ call ∈ made, call.caller.stretch.CalledIn text ∧
      call.callee.stretch ∈ call.caller.stretch.outline.stretches :=
    fun call h => of_mem_calls hinner hwhole h
  refine ⟨⟨rfl, hwhole.start_lt_stop, ?_⟩, fun visit => called_of_mem_visits, fun call h => ?_,
    fun s h => ?_⟩
  · show 0 + (Layout.ofText text).spelling.length = text.length
    rw [Layout.spelling_ofText, Nat.zero_add]
  · obtain ⟨hcaller, hnamed⟩ := hmade call h
    have hcallee := hcaller.named hruns hnamed
    obtain ⟨hstart, hstop, hshorter⟩ := inside_of_mem_stretches hcaller.cut.proper hnamed
    have hnonempty := hcallee.start_lt_stop
    refine ⟨hstart, hnonempty, hstop, hcaller.stop_le, by omega, _, hcallee.slice?, ?_⟩
    exact hcallee.balanced (isComplete_of_mem_stretches hnamed)
  · rcases h with rfl | ⟨call, h, rfl⟩
    · exact outlineBetween?_eq hwhole.cut
    · obtain ⟨hcaller, hnamed⟩ := hmade call h
      exact outlineBetween?_eq (hcaller.named hruns hnamed).cut

/-- The group `((((a|b)^)))` is called for by a sequence that ends in a stray bracket. What its own
brackets leave of it is all called for, and shorter. -/
theorem reading_goes_down_strayBracket :
    let text := "((((a|b)^)))c)".toList
    "((((a|b)^)))c)" ≠ "" ∧ (Stretch.ofText text).span = ⟨0, 14⟩ ∧
    (∃ call ∈ calls 14 14 (.ofText text), call.caller.stretch.span = ⟨0, 12⟩ ∧
      call.callee.stretch.span = ⟨3, 9⟩ ∧
      outlineBetween? (collapse text) 3 9 = some call.callee.stretch.outline) ∧
    (collapse text).length ≤ 14 ∧
    ∀ limit, parse ⟨14, 14⟩ "((((a|b)^)))c)" ≠ .error (.tooDeep limit) := by
  intro text
  have hne : "((((a|b)^)))c)" ≠ "" := by decide
  have hlength : (collapse text).length ≤ 14 := by decide
  have hmade : ∃ call ∈ calls 14 14 (.ofText text), call.caller.stretch.span = ⟨0, 12⟩ ∧
      call.callee.stretch.span = ⟨3, 9⟩ := by decide
  obtain ⟨hdown, hdeep⟩ := reading_goes_down ⟨14, 14⟩ "((((a|b)^)))c)"
  obtain ⟨-, -, -, hscan⟩ := hdown hne
  obtain ⟨call, hcall, hcaller, hcallee⟩ := hmade
  have hfound := hscan call.callee.stretch (.inr ⟨call, hcall, rfl⟩)
  obtain ⟨hfirst, hlast⟩ := Span.mk.inj hcallee
  rw [hfirst, hlast] at hfound
  exact ⟨hne, rfl, ⟨call, hcall, hcaller, hcallee, hfound⟩, hlength, hdeep hlength⟩

end CaretAutomata.Pattern

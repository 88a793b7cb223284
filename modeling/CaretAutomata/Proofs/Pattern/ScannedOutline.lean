import CaretAutomata.Proofs.Pattern.ScannedParts

/-!
# The scanned outline

A scan tells the brackets around everything from others by where the first one is closed
(`exists_of_closingFrom`). With these told apart, the outline between two positions is the outline
of the stretch there (`outlineBetween?_eq`).
-/

namespace CaretAutomata.Pattern

open Stretch

/-! ## Groups that are all of a stretch -/

section Groups

variable {text left : List Char} {start stop first last : Nat} {s : Stretch}

theorem closing?_of_ahead (h : Ahead text last first left) :
    closing? text first last = some (closingFrom 0 first left) := by
  rw [closing?, slice?_of_ahead h]
  rfl

/-- A scan for brackets to leave out, of a text that is not empty. -/
theorem openBetween?_cons {c : Char} (h : Ahead text last first (c :: left)) :
    openBetween? text start stop first last =
      if c = '(' ∧ closingFrom 0 first (c :: left) = some (first + left.length) then
        if left.head? == some '^' then
          do return .error (← faultBetween? text start stop .markerAfterOpen (.single (first + 1)))
        else openBetween? text start stop (first + 1) (first + left.length)
      else some (.ok (first, last)) := by
  have hlast : last.psub 1 = some (first + left.length) := by
    rw [← h.stop_eq]
    rfl
  rw [openBetween?.eq_def, if_pos h.lt]
  split
  · next hnone => exact absurd (hnone.symm.trans hlast) (by simp)
  · next close hclose =>
    obtain rfl : close = first + left.length := Option.some.inj (hclose.symm.trans hlast)
    rw [h.getElem?, closing?_of_ahead h, h.next.markerAt?]
    by_cases hc : c = '('
    · subst hc
      by_cases hclosing : closingFrom 0 first ('(' :: left) = some (first + left.length)
      · simp [hclosing]
      · simp [hclosing]
    · simp [hc]

/-- Brackets around everything are left out, unless a marker is found behind one. -/
theorem openBetween?_group {inside : Bracketed} (hinside : inside.Proper)
    (h : Ahead text last first ('(' :: (inside.spelling ++ [')']))) :
    openBetween? text start stop first last =
      if inside.startsWithMarker then
        do return .error (← faultBetween? text start stop .markerAfterOpen (.single (first + 1)))
      else openBetween? text start stop (first + 1) (first + 1 + inside.width) := by
  have hclosing : first + (inside.spelling ++ [')']).length = first + 1 + inside.width := by
    rw [List.length_append, Bracketed.length_spelling, List.length_singleton]
    omega
  rw [openBetween?_cons h, hclosing, closingFrom_group hinside, if_pos ⟨rfl, rfl⟩,
    head?_spelling_eq (by simp)]

/-- Where something stands in front of the brackets or behind them, none are left out. -/
theorem openBetween?_of_ne (h : Ahead text last first left)
    (hne : ∀ inside : Bracketed, inside.Proper → left ≠ (Bracketed.group inside .nil).spelling) :
    openBetween? text start stop first last = some (.ok (first, last)) := by
  cases left with
  | nil => rw [openBetween?, if_neg (Nat.not_lt.mpr (Nat.le_of_eq h.eq_stop.symm))]
  | cons c left =>
    rw [openBetween?_cons h, if_neg]
    intro hgroup
    obtain ⟨rfl, hclosing⟩ := hgroup
    obtain ⟨inside, rest, hinside, rfl, hwidth⟩ := exists_of_closingFrom hclosing
    obtain rfl : rest = [] := by
      rw [← List.length_eq_zero_iff]
      rw [List.length_append, Bracketed.length_spelling, List.length_cons] at hwidth
      omega
    exact hne inside hinside (by simp)

/-- **Brackets around everything are found one by one.** -/
theorem openBetween?_eq (hs : s.CutFrom text) {b : Bracketed} (hb : b.Proper)
    (h : Ahead text last first b.spelling) : openBetween? text s.start s.stop first last =
      some (match openBrackets first b with
        | .error position => .error (s.fault .markerAfterOpen (.single position))
        | .ok opened => .ok (opened.start, opened.stop)) := by
  fun_induction openBrackets first b generalizing last with
  | case1 first inside hmarker =>
    rw [Bracketed.spelling_group] at h
    rw [openBetween?_group hb.1 h, hmarker, if_pos rfl, hs.fault]
    rfl
  | case2 first inside hmarker ih =>
    rw [Bracketed.spelling_group] at h
    rw [openBetween?_group hb.1 h, if_neg hmarker]
    exact ih hb.1 h.next.front
  | case3 first b hne =>
    have hother : ∀ inside : Bracketed, inside.Proper →
        b.spelling ≠ (Bracketed.group inside .nil).spelling := by
      intro inside hinside heq
      have hcut := congrArg Layout.ofText heq
      have hgroup : (Bracketed.group inside .nil).Proper := ⟨hinside, trivial⟩
      rw [Layout.ofText_spelling hb, Layout.ofText_spelling hgroup] at hcut
      exact hne inside (Layout.mk.inj hcut).1
    have hstop : (matched first b).stop = last := by
      rw [Stretch.stop, spelling_matched, ← h.stop_eq]
      rfl
    show _ = some (Except.ok (first, (matched first b).stop))
    rw [openBetween?_of_ne h hother, hstop]

/-- A repeated group that is all of a stretch is found. -/
theorem repetitionBetween?_group (hs : s.CutFrom text) {inside : Bracketed}
    (hlayout : s.layout = ⟨.group inside (.sign '^' .nil), [], none⟩) :
    repetitionBetween? text s.start s.stop = some s.repeatedGroup? := by
  have hinside : inside.Proper := by
    have hproper := hs.proper
    rw [hlayout] at hproper
    exact hproper.1
  have h : Ahead text s.stop s.start ('(' :: (inside.spelling ++ [')', '^'])) := by
    have hspelling : s.layout.spelling = '(' :: (inside.spelling ++ [')', '^']) := by
      rw [hlayout]
      simp [Layout.spelling, Layout.tail, Layout.spellStrays, Layout.spellUnclosed]
    rw [← hspelling]
    exact hs.ahead
  have hclosing := h.next.through
  have hstop : s.stop = s.start + 1 + inside.width + 2 := hclosing.stop_eq.symm
  have hall : s.stop.psub s.start = some (inside.width + 3) := by
    rw [Nat.psub_eq_some]
    omega
  have hone : s.stop.psub 1 = some (s.start + 1 + inside.width + 1) := by
    rw [Nat.psub_eq_some]
    omega
  have htwo : s.stop.psub 2 = some (s.start + 1 + inside.width) := by
    rw [Nat.psub_eq_some]
    omega
  have hlong : ¬ inside.width + 3 < 3 := by omega
  have hempty : s.start + 1 + inside.width = s.start + 1 ↔ inside.isEmpty = true := by
    rw [isEmpty_iff_width]
    omega
  have hbody := between?_of_ahead hinside h.next.front
  have hmarker := h.next.markerAt?
  rw [head?_spelling_eq (by simp)] at hmarker
  rw [repeatedGroup?, hlayout]
  simp only [repetitionBetween?, hall, hone, htwo, h.getElem?, hclosing.getElem?,
    hclosing.next.getElem?, closing?_of_ahead h, closingFrom_group hinside, hempty, hs.fault,
    hmarker, hbody, Option.bind_eq_bind, Option.bind_some, hlong, ne_eq, not_true_eq_false,
    if_false]
  cases inside.isEmpty with
  | true => rfl
  | false => cases inside.startsWithMarker <;> rfl

/-- A group that is closed right in front of a last marker is a repeated one. -/
theorem exists_group_of_closingFrom (h : Ahead text stop start ('(' :: left))
    (hmarker : text[stop - 1]? = some '^')
    (hclosing : closingFrom 0 start ('(' :: left) = some (stop - 2)) :
    ∃ inside : Bracketed, inside.Proper ∧
      '(' :: left = (Bracketed.group inside (.sign '^' .nil)).spelling := by
  obtain ⟨inside, rest, hinside, rfl, hwidth⟩ := exists_of_closingFrom hclosing
  have hrest := h.next.through.next
  have hlength := hrest.stop_eq
  obtain ⟨c, rfl⟩ : ∃ c, rest = [c] := by
    rw [← List.length_eq_one_iff]
    omega
  have hlast := hrest.getElem?
  have hposition : start + 1 + inside.width + 1 = stop - 1 := by
    rw [List.length_singleton] at hlength
    omega
  rw [hposition, hmarker] at hlast
  obtain rfl := Option.some.inj hlast
  exact ⟨inside, hinside, by simp⟩

/-- Anything else is none. -/
theorem repetitionBetween?_of_ne (h : Ahead text stop start left)
    (hne : ∀ inside : Bracketed, inside.Proper →
      left ≠ (Bracketed.group inside (.sign '^' .nil)).spelling) :
    repetitionBetween? text start stop = some none := by
  have hstop := h.stop_eq
  have hall : stop.psub start = some left.length := by
    rw [Nat.psub_eq_some]
    omega
  by_cases hshort : left.length < 3
  · simp [repetitionBetween?, hall, hshort]
  have hlength := h.slice.le_length
  have hone : stop.psub 1 = some (stop - 1) := Nat.psub_eq_some.mpr (by omega)
  have htwo : stop.psub 2 = some (stop - 2) := Nat.psub_eq_some.mpr (by omega)
  obtain ⟨last, hlast⟩ : ∃ last, text[stop - 1]? = some last :=
    ⟨_, List.getElem?_eq_getElem (by omega)⟩
  obtain ⟨second, hsecond⟩ : ∃ second, text[stop - 2]? = some second :=
    ⟨_, List.getElem?_eq_getElem (by omega)⟩
  cases left with
  | nil => exact absurd (Nat.zero_lt_succ 2) hshort
  | cons c left =>
    simp only [repetitionBetween?, hall, hone, htwo, h.getElem?, hlast, hsecond,
      closing?_of_ahead h, Option.bind_eq_bind, Option.bind_some, if_neg hshort]
    by_cases hopen : c = '('
    · by_cases hmarker : last = '^'
      · subst hopen hmarker
        have hnone : closingFrom 0 start ('(' :: left) ≠ some (stop - 2) := by
          intro hclosing
          obtain ⟨inside, hinside, hgroup⟩ := exists_group_of_closingFrom h hlast hclosing
          exact hne inside hinside hgroup
        simp [hnone]
      · simp [hopen, hmarker]
    · simp [hopen]

end Groups

/-! ## The outline -/

/-- The count is as it was behind matched text, and goes above zero in its groups. -/
theorem barAtLevelZero_spelling {b : Bracketed} (hb : b.Proper) (level : Nat) (rest : List Char) :
    barAtLevelZero level (b.spelling ++ rest) =
      ((level == 0 && b.hasBar) || barAtLevelZero level rest) := by
  induction b generalizing level rest with
  | nil => simp [Bracketed.hasBar]
  | sign c others ih =>
    obtain ⟨hopen, hclose, hothers⟩ := hb
    rw [Bracketed.spelling_sign, List.cons_append, barAtLevelZero.eq_4 _ _ _ hopen hclose,
      ih hothers, Bracketed.hasBar]
    have hlevel : ((level : Int) == 0) = (level == 0) := by
      rw [Bool.eq_iff_iff]
      simp
    rw [hlevel, Bool.and_or_distrib_left, Bool.or_assoc, Bool.and_comm]
  | group inside others ihInside ihOthers =>
    obtain ⟨hinside, hothers⟩ := hb
    have hopened : (level : Int) + 1 = ((level + 1 : Nat) : Int) := rfl
    have hclosed : ((level + 1 : Nat) : Int) - 1 = level := by omega
    rw [Bracketed.spelling_group, List.cons_append, List.append_assoc, List.cons_append,
      barAtLevelZero, hopened, ihInside hinside, barAtLevelZero, hclosed, ihOthers hothers,
      Bracketed.hasBar]
    simp

section Outlines

variable {text : List Char} {s : Stretch}

theorem barAtLevelZero_eq_isChoice (hs : s.CutFrom text) :
    barAtLevelZero 0 s.layout.spelling = s.isChoice :=
  barAtLevelZero_spelling hs.proper 0 s.layout.tail

/-- What stands between two positions is scanned as a choice or as a sequence. -/
theorem scan_eq_inner (hs : s.CutFrom text) :
    (do
      if barAtLevelZero 0 (← slice? text s.start s.stop) then
        let (alternatives, fault) ← alternativesFrom? text s.start s.stop s.start 0 none s.start
        return Outline.choice alternatives fault
      else
        let (parts, fault) ← partsFrom? text s.start s.stop s.start 0 none
        return Outline.sequence parts fault) = some s.inner := by
  have hproper := hs.proper
  have hahead := hs.ahead
  rw [Layout.spelling] at hahead
  rw [slice?_of_ahead hs.ahead, Stretch.inner]
  cases hchoice : s.isChoice with
  | true =>
    obtain ⟨hfirst, hothers⟩ := piece_splitAtBars hproper
    rw [← joinAtBars_splitAtBars s.layout.nodes] at hahead
    simp [barAtLevelZero_eq_isChoice hs, hchoice, alternativesFrom?_eq hs hfirst hothers hahead]
  | false => simp [barAtLevelZero_eq_isChoice hs, hchoice, partsFrom?_eq hs hproper hahead]

theorem spelling_of_isComplete (h : s.layout.isComplete = true) :
    s.layout.spelling = s.layout.nodes.spelling := by
  rw [layout_eq_of_isComplete h]
  exact List.append_nil _

theorem start_eq_stop_iff : s.start = s.stop ↔ s.layout.spelling = [] := by
  rw [Stretch.stop, ← List.length_eq_zero_iff]
  omega

theorem start_eq_stop_iff_isEmpty (h : s.layout.isComplete = true) :
    s.start = s.stop ↔ s.layout.nodes.isEmpty = true := by
  rw [start_eq_stop_iff, spelling_of_isComplete h, ← List.length_eq_zero_iff,
    Bracketed.length_spelling, isEmpty_iff_width]

/-- A text that is matched is not cut. -/
theorem isComplete_of_spelling (hs : s.CutFrom text) {b : Bracketed} (hb : b.Proper)
    (h : s.layout.spelling = b.spelling) : s.layout.isComplete = true := by
  rw [hs.layout, h, Layout.ofText_spelling hb]
  rfl

/-- What is left when the brackets around a stretch are gone was cut at its brackets as well. -/
theorem cutFrom_opened {opened : Stretch} (hs : s.CutFrom text)
    (hcomplete : s.layout.isComplete = true)
    (h : openBrackets s.start s.layout.nodes = .ok opened) : opened.CutFrom text := by
  have hproper := (opensTo_of_openBrackets h).proper hs.proper
  obtain ⟨k, nodes, rfl, hspelling, -⟩ := openBrackets_eq_ok h
  have hslice := hs.slice
  rw [spelling_of_isComplete hcomplete, hspelling] at hslice
  have hinside := hslice.right.left
  rw [List.length_replicate] at hinside
  exact cutFrom_matched hproper hinside

/-- **Going through a text by positions finds the outline of each of its stretches**, and no check
on the way fails. -/
theorem outlineBetween?_eq (hs : s.CutFrom text) :
    outlineBetween? text s.start s.stop = some s.outline := by
  cases hgroup : s.repeatedGroup? with
  | some result =>
    obtain ⟨inside, hlayout, -⟩ := repeatedGroup?_cases hgroup
    rw [outlineBetween?, repetitionBetween?_group hs hlayout, outline, hgroup]
    cases result <;> rfl
  | none =>
    have hother : ∀ inside : Bracketed, inside.Proper →
        s.layout.spelling ≠ (Bracketed.group inside (.sign '^' .nil)).spelling := by
      intro inside hinside heq
      have hlayout := hs.layout
      have hproper : (Bracketed.group inside (.sign '^' .nil)).Proper :=
        ⟨hinside, by decide, by decide, trivial⟩
      rw [heq, Layout.ofText_spelling hproper] at hlayout
      rw [repeatedGroup?, hlayout] at hgroup
      exact absurd hgroup (by simp)
    rw [outlineBetween?, repetitionBetween?_of_ne hs.ahead hother, outline, hgroup]
    cases hcomplete : s.layout.isComplete with
    | true =>
      have hahead := hs.ahead
      rw [spelling_of_isComplete hcomplete] at hahead
      have hopen := openBetween?_eq hs hs.proper hahead
      cases hbrackets : openBrackets s.start s.layout.nodes with
      | error position =>
        rw [hbrackets] at hopen
        simp [hopen]
      | ok opened =>
        have hopened := cutFrom_opened hs hcomplete hbrackets
        have hsame : opened.start = opened.stop ↔ opened.layout.nodes.isEmpty = true := by
          apply start_eq_stop_iff_isEmpty
          rw [(opensTo_of_openBrackets hbrackets).layout]
          rfl
        rw [hbrackets] at hopen
        cases hempty : opened.layout.nodes.isEmpty with
        | true =>
          rw [hempty] at hsame
          simp [hopen, hsame, hempty, hs.fault, Stretch.span]
        | false =>
          rw [hempty] at hsame
          simpa [hopen, hsame, hempty] using scan_eq_inner hopened
    | false =>
      have hincomplete : ∀ b : Bracketed, b.Proper → s.layout.spelling ≠ b.spelling := by
        intro b hb h
        rw [isComplete_of_spelling hs hb h] at hcomplete
        exact absurd hcomplete (by simp)
      have hsame : s.start ≠ s.stop := fun h => hincomplete .nil trivial (start_eq_stop_iff.mp h)
      have hopen : openBetween? text s.start s.stop s.start s.stop = some (.ok (s.start, s.stop)) :=
        openBetween?_of_ne hs.ahead fun inside hinside => hincomplete _ ⟨hinside, trivial⟩
      simpa [hopen, hsame] using scan_eq_inner hs

end Outlines

end CaretAutomata.Pattern

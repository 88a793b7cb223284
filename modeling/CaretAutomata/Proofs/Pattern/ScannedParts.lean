import CaretAutomata.Proofs.Pattern.Counting

/-!
# Scanning a sequence or a choice

The scans follow `Stretch.parts` and `Stretch.alternatives`: what these take from the matched text
at once, a group with its marker or an alternative up to its bar, the scans come to character by
character, with the count back at zero at its end.
-/

namespace CaretAutomata.Pattern

open Stretch

/-! ## Sequences -/

section Sequences

variable {text : List Char} {s : Stretch} {position : Nat}

theorem countsBrackets_partsFrom? (hs : s.CutFrom text) :
    CountsBrackets text s (partsFrom? text s.start s.stop) where
  opening level opened h := by
    rw [partsFrom?.eq_def, if_pos h.lt, h.getElem?]
    simp only [h.next.markerAt?, hs.fault, Option.bind_eq_bind, Option.bind_some, if_true]
    rfl
  closing level opened h := by
    rw [partsFrom?.eq_def, if_pos h.lt, h.getElem?]
    simp [Nat.ppred]
  sign level opened hopen hclose h := by
    rw [partsFrom?.eq_def, if_pos h.lt, h.getElem?]
    simp [hopen, hclose]
  stray opened h := by
    rw [partsFrom?.eq_def, if_pos h.lt, h.getElem?]
    simp [hs.fault]
  unclosed level first := by
    rw [partsFrom?, if_neg (Nat.lt_irrefl _)]
    simp [hs.fault]

/-- What stands behind a stretch's matched text is no marker. -/
theorem head?_tail_ne (l : Layout) : l.tail.head? ≠ some '^' := by
  obtain ⟨nodes, strays, unclosed⟩ := l
  cases strays <;> cases unclosed <;> simp [Layout.tail, Layout.spellStrays, Layout.spellUnclosed]

/-- A group is named where its bracket closes, with the marker behind it. -/
theorem partsFrom?_group (hs : s.CutFrom text) (marked : Bool) {inside : Bracketed}
    (hinside : inside.Proper) {rest : List Char} (hrest : marked = false → rest.head? ≠ some '^')
    (h : Ahead text s.stop position
      ((Bracketed.group inside (markerOnto marked .nil)).spelling ++ rest))
    {behind : List Part × Option StructuralFault}
    (hbehind : partsFrom? text s.start s.stop
      (position + (Bracketed.group inside (markerOnto marked .nil)).width) 0 none = some behind) :
    partsFrom? text s.start s.stop position 0 none =
      some (s.prependGroup position (.group inside (markerOnto marked .nil)) behind) := by
  have hcounts := countsBrackets_partsFrom? hs
  have hgroup : between? text position
      (position + (Bracketed.group inside (markerOnto marked .nil)).width) =
        some (matched position (.group inside (markerOnto marked .nil))) :=
    between?_of_ahead ⟨hinside, proper_markerOnto trivial⟩ h.front
  have hwidth : position + (Bracketed.group inside (markerOnto marked .nil)).width =
      position + 1 + inside.width + 1 + marked.toNat := by
    rw [Bracketed.add_width_group]
    cases marked <;> rfl
  have hnone : ∀ p, s.markerFault? p (markerOnto marked .nil) = none := by
    cases marked <;> exact fun _ => rfl
  rw [Bracketed.spelling_group, List.cons_append, List.append_assoc, List.cons_append] at h
  have hclosing := h.next.through
  have hmarker := hclosing.next.markerAt?
  have hhead : (((markerOnto marked .nil).spelling ++ rest).head? == some '^') = marked := by
    cases marked with
    | true => rfl
    | false => exact beq_false_of_ne (hrest rfl)
  rw [hhead] at hmarker
  rw [prependGroup, markerFault?_group hinside, hcounts.opening 0 none h,
    head?_spelling_eq (by simp), hnone]
  cases inside.startsWithMarker with
  | true => rfl
  | false =>
    rw [if_neg Bool.false_ne_true, if_neg Bool.false_ne_true, if_pos rfl,
      hcounts.through hinside 0 (some position) h.next]
    cases s.markerFault? (position + 1) inside with
    | some fault => rfl
    | none =>
      rw [hwidth] at hgroup hbehind
      show partsFrom? text s.start s.stop (position + 1 + inside.width) 1 (some position) = _
      rw [partsFrom?.eq_def, if_pos hclosing.lt, hclosing.getElem?]
      simp [Nat.ppred, hmarker, hgroup, hbehind]

/-- A character is taken with the marker behind it. -/
theorem partsFrom?_sign (marked : Bool) {c : Char} (hopen : c ≠ '(') (hclose : c ≠ ')')
    (hc : c ≠ '^') {rest : List Char} (hrest : (rest.head? == some '^') = marked)
    (h : Ahead text s.stop position (c :: rest)) {behind : List Part × Option StructuralFault}
    (hbehind : partsFrom? text s.start s.stop (position + 1 + marked.toNat) 0 none = some behind) :
    partsFrom? text s.start s.stop position 0 none =
      some (prepend (if marked then .repeatedSign c else .sign c) behind) := by
  have hmarker := h.next.markerAt?
  rw [hrest] at hmarker
  rw [partsFrom?.eq_def, if_pos h.lt, h.getElem?]
  simp [hopen, hclose, hc, hmarker, hbehind]

theorem head?_behind (l : Layout) {b : Bracketed} (h : ∀ rest, b = .sign '^' rest → False) :
    ((b.spelling ++ l.tail).head? == some '^') = false := by
  rw [head?_spelling_eq (head?_tail_ne l)]
  exact Bool.not_eq_true _ ▸ not_startsWithMarker h

/-- **The scan of a sequence finds its parts**, and the fault behind them. -/
theorem partsFrom?_eq (hs : s.CutFrom text) {left : Bracketed} (hleft : left.Proper)
    (h : Ahead text s.stop position (left.spelling ++ s.layout.tail)) :
    partsFrom? text s.start s.stop position 0 none = some (s.parts position left) := by
  have hcounts := countsBrackets_partsFrom? hs
  fun_induction Stretch.parts s position left with
  | case1 position =>
    cases hfault : s.tailFault? position with
    | some fault => exact hcounts.tail hs h hfault
    | none =>
      obtain ⟨hstrays, hunclosed⟩ := isComplete_of_tailFault? hfault
      rw [Bracketed.spelling_nil, List.nil_append, Layout.tail, hstrays, hunclosed] at h
      rw [partsFrom?, if_neg (Nat.not_lt.mpr (Nat.le_of_eq h.eq_stop.symm))]
      rfl
  | case2 position rest =>
    rw [partsFrom?.eq_def, if_pos h.lt, h.getElem?]
    simp [hs.fault]
    rfl
  | case3 position c rest hc ih =>
    obtain ⟨hopen, hclose, -, -, hrest⟩ := hleft
    exact partsFrom?_sign true hopen hclose hc rfl h (ih hrest h.next.next)
  | case4 position c rest hc hne ih =>
    obtain ⟨hopen, hclose, hrest⟩ := hleft
    exact partsFrom?_sign false hopen hclose hc (head?_behind s.layout hne) h (ih hrest h.next)
  | case5 position inside rest ih =>
    have hgroup : Ahead text s.stop position
        ((Bracketed.group inside (markerOnto true .nil)).spelling ++
          (rest.spelling ++ s.layout.tail)) := by
      simpa [markerOnto] using h
    exact partsFrom?_group hs true hleft.1 (fun hfalse => absurd hfalse (by simp)) hgroup
      (ih hleft.2.2.2 hgroup.through)
  | case6 position inside rest hne ih =>
    have hgroup : Ahead text s.stop position
        ((Bracketed.group inside (markerOnto false .nil)).spelling ++
          (rest.spelling ++ s.layout.tail)) := by
      simpa [markerOnto] using h
    have hrest := beq_eq_false_iff_ne.mp (head?_behind s.layout hne)
    exact partsFrom?_group hs false hleft.1 (fun _ => hrest) hgroup (ih hleft.2 hgroup.through)

end Sequences

/-! ## Choices -/

section Choices

variable {text : List Char} {s : Stretch} {position : Nat}

theorem countsBrackets_alternativesFrom? (hs : s.CutFrom text) (segment : Nat) :
    CountsBrackets text s fun position level opened =>
      alternativesFrom? text s.start s.stop position level opened segment where
  opening level opened h := by
    rw [alternativesFrom?.eq_def, if_pos h.lt, h.getElem?]
    simp only [h.next.markerAt?, hs.fault, Option.bind_eq_bind, Option.bind_some, if_true]
    rfl
  closing level opened h := by
    rw [alternativesFrom?.eq_def, if_pos h.lt, h.getElem?]
    simp [Nat.ppred]
  sign level opened hopen hclose h := by
    rw [alternativesFrom?.eq_def, if_pos h.lt, h.getElem?]
    simp [hopen, hclose]
  stray opened h := by
    rw [alternativesFrom?.eq_def, if_pos h.lt, h.getElem?]
    simp [hs.fault]
  unclosed level first := by
    rw [alternativesFrom?.eq_def, if_neg (Nat.lt_irrefl _)]
    simp [hs.fault]

/-- Matched text without bars is gone through, unless a marker in it ends the scan. -/
theorem alternativesFrom?_through (hs : s.CutFrom text) {b : Bracketed} (hb : Piece b)
    (segment : Nat) {rest : List Char} (h : Ahead text s.stop position (b.spelling ++ rest)) :
    alternativesFrom? text s.start s.stop position 0 none segment =
      endOr (s.markerFault? position b)
        (alternativesFrom? text s.start s.stop (position + b.width) 0 none segment) := by
  have hcounts := countsBrackets_alternativesFrom? hs segment
  obtain ⟨hproper, hbar⟩ := hb
  induction b generalizing position rest with
  | nil => rfl
  | sign c others ih =>
    obtain ⟨hopen, hclose, hothers⟩ := hproper
    obtain ⟨hc, hbar⟩ := hasBar_sign hbar
    have hstep : alternativesFrom? text s.start s.stop position 0 none segment =
        alternativesFrom? text s.start s.stop (position + 1) 0 none segment := by
      rw [alternativesFrom?.eq_def, if_pos h.lt, h.getElem?]
      simp [hopen, hclose, hc]
    rw [hstep, ih h.next hothers hbar, Bracketed.add_width_sign]
    exact congrArg (endOr · _) (markerFaultIn?_cons_of_ne hopen _).symm
  | group inside others _ ih =>
    obtain ⟨hinside, hothers⟩ := hproper
    rw [Bracketed.spelling_group, List.cons_append, List.append_assoc, List.cons_append] at h
    have hclosing := h.next.through
    have hstep : alternativesFrom? text s.start s.stop (position + 1 + inside.width) 1
        (some position) segment =
          alternativesFrom? text s.start s.stop (position + 1 + inside.width + 1) 0 none
            segment := by
      rw [alternativesFrom?.eq_def, if_pos hclosing.lt, hclosing.getElem?]
      simp [Nat.ppred]
    rw [hcounts.opening 0 none h, head?_spelling_eq (by simp), markerFault?_group hinside]
    cases inside.startsWithMarker with
    | true => rfl
    | false =>
      rw [if_neg Bool.false_ne_true, if_neg Bool.false_ne_true, if_pos rfl,
        hcounts.through hinside 0 (some position) h.next, hstep, ih hclosing.next hothers hbar,
        endOr_or, Bracketed.add_width_group]

theorem isEmpty_iff_width {b : Bracketed} : b.isEmpty = true ↔ b.width = 0 := by
  cases b <;> simp [Bracketed.isEmpty, Bracketed.width]

/-- Behind a bar stands a marker only if the next alternative starts with one. -/
theorem startsWithMarker_joinAtBars_eq (first : Bracketed) (others : List Bracketed) :
    (joinAtBars first others).startsWithMarker = first.startsWithMarker := by
  cases hstarts : first.startsWithMarker with
  | true => exact startsWithMarker_joinAtBars hstarts others
  | false =>
    cases others with
    | nil => exact hstarts
    | cons second others =>
      cases first with
      | nil => rfl
      | group inside rest => rfl
      | sign c rest =>
        by_cases hc : c = '^'
        · subst hc
          exact hstarts
        · simp [joinAtBars, Bracketed.append, Bracketed.startsWithMarker, hc]

/-- The end of the stretch ends the last alternative. -/
theorem alternativesFrom?_end (hs : s.CutFrom text) {last : Bracketed} (hlast : last.Proper)
    (h : Ahead text s.stop position last.spelling) :
    alternativesFrom? text s.start s.stop (position + last.width) 0 none position =
      some (match s.emptinessFault? position last with
        | some fault => ([], some fault)
        | none => ([matched position last], none)) := by
  have hstop : position + last.width = s.stop := by
    rw [← Bracketed.length_spelling]
    exact h.stop_eq
  have halternative := between?_of_ahead hlast h
  rw [alternativesFrom?, if_neg (Nat.not_lt.mpr (Nat.le_of_eq hstop.symm)), emptinessFault?]
  cases hempty : last.isEmpty with
  | true =>
    have hwidth := isEmpty_iff_width.mp hempty
    have hposition : position = s.stop := by omega
    rw [if_pos hposition, hs.fault, ← hposition]
    rfl
  | false =>
    have hwidth := mt isEmpty_iff_width.mpr (Bool.not_eq_true _ ▸ hempty)
    rw [if_neg (by omega)]
    simp [halternative]

/-- A bar ends an alternative as well. -/
theorem alternativesFrom?_bar (hs : s.CutFrom text) {first : Bracketed} (hfirst : first.Proper)
    {rest : List Char} (h : Ahead text s.stop position (first.spelling ++ '|' :: rest))
    {behind : List Stretch × Option StructuralFault}
    (hbehind : alternativesFrom? text s.start s.stop (position + first.width + 1) 0 none
      (position + first.width + 1) = some behind) :
    alternativesFrom? text s.start s.stop (position + first.width) 0 none position =
      if rest.head? == some '^' then
        some (endedBy (s.fault .markerAfterBar (.single (position + first.width + 1))))
      else some (match s.emptinessFault? position first with
        | some fault => ([], some fault)
        | none => (matched position first :: behind.1, behind.2)) := by
  have hbar := h.through
  have halternative := between?_of_ahead hfirst h.front
  rw [alternativesFrom?.eq_def, if_pos hbar.lt, hbar.getElem?, emptinessFault?]
  cases hempty : first.isEmpty with
  | true =>
    have hwidth := isEmpty_iff_width.mp hempty
    rw [hwidth, Nat.add_zero] at hbar
    simp [hbar.next.markerAt?, hs.fault, hwidth, endedBy]
  | false =>
    have hwidth := mt isEmpty_iff_width.mpr (Bool.not_eq_true _ ▸ hempty)
    simp [hbar.next.markerAt?, hs.fault, hwidth, halternative, hbehind]

/-- **The scan of a choice finds its alternatives**, and the fault behind them. -/
theorem alternativesFrom?_eq (hs : s.CutFrom text) : ∀ {others : List Bracketed} {first : Bracketed}
    {position : Nat}, Piece first → (∀ other ∈ others, Piece other) →
    Ahead text s.stop position ((joinAtBars first others).spelling ++ s.layout.tail) →
    alternativesFrom? text s.start s.stop position 0 none position =
      some (s.alternatives position first others)
  | [], first, position, hfirst, _, h => by
    have hcounts := countsBrackets_alternativesFrom? hs position
    rw [joinAtBars] at h
    rw [alternativesFrom?_through hs hfirst position h, Stretch.alternatives, alternativeFault?]
    cases s.markerFault? position first with
    | some fault => rfl
    | none =>
      show alternativesFrom? text s.start s.stop (position + first.width) 0 none position = _
      cases hfault : s.tailFault? (position + first.width) with
      | some fault => exact hcounts.tail hs h.through hfault
      | none =>
        obtain ⟨hstrays, hunclosed⟩ := isComplete_of_tailFault? hfault
        rw [Layout.tail, hstrays, hunclosed] at h
        have hwhole : Ahead text s.stop position first.spelling := by
          simpa [Layout.spellStrays, Layout.spellUnclosed] using h
        exact alternativesFrom?_end hs hfirst.proper hwhole
  | second :: others, first, position, hfirst, hothers, h => by
    have hsplit : (joinAtBars first (second :: others)).spelling ++ s.layout.tail =
        first.spelling ++ '|' :: ((joinAtBars second others).spelling ++ s.layout.tail) := by
      simp [joinAtBars]
    rw [hsplit] at h
    have hrest := alternativesFrom?_eq hs (hothers second (.head _))
      (fun other hother => hothers other (.tail _ hother)) h.through.next
    rw [alternativesFrom?_through hs hfirst position h,
      alternativesFrom?_bar hs hfirst.proper h hrest, head?_spelling_eq (head?_tail_ne s.layout),
      startsWithMarker_joinAtBars_eq, Stretch.alternatives, alternativeFault?, barFault?]
    cases s.markerFault? position first with
    | some fault => rfl
    | none =>
      cases second.startsWithMarker with
      | true => rfl
      | false => rfl

end Choices

end CaretAutomata.Pattern

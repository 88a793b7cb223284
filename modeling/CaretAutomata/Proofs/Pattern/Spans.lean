import CaretAutomata.Pattern.Reading

/-!
# Where a fault stands

A structural fault comes with a span and a fragment. `StructuralFault.PointsInto` says what they are
worth: the fragment is a part of the text that was read, the span lies in it, and the characters at
the span, with those of the fragment around them, show the defect that the fault names
(`Defect.StandsAt`).

A fault is found in some stretch, by walking through it from left to right. `Stretch.Located` is
what is known of a stretch when it is read, `Stretch.LeftAt` what is known on the way. A defect that
is found where a located stretch has been walked to points into the text (`LeftAt.pointsInto`).
-/

namespace CaretAutomata.Pattern

open Stretch

/-! ## What a fault says -/

/-- Every bracket of the text is matched by another one of it. -/
def IsMatched (text : List Char) : Prop := ∃ b : Bracketed, b.Proper ∧ b.spelling = text

/-- The text behind an opening bracket that nothing closes. -/
def NeverCloses (text : List Char) : Prop :=
  ∀ inside behind, IsMatched inside → text ≠ inside ++ ')' :: behind

/-- What a defect claims of the characters `here`, at `position` of the pattern. `before` and
`behind` are the characters around them, as far as the fragment goes. -/
def Defect.StandsAt (position : Nat) (before here behind : List Char) : Defect → Prop
  | .unexpectedClose => here = [')'] ∧ IsMatched before
  | .missingClose =>
    IsMatched before ∧ (∃ rest, here = '(' :: rest ∧ NeverCloses rest) ∧ behind = []
  | .markerAfterOpen => here = ['^'] ∧ before.getLast? = some '('
  | .markerAfterBar => here = ['^'] ∧ before.getLast? = some '|'
  | .nothingToRepeat => here = ['^'] ∧ position = 0
  | .emptyRepetition => before = [] ∧ here = ['(', ')', '^'] ∧ behind = []
  | .emptyGroup =>
    before = [] ∧ behind = [] ∧
      ∃ k, 0 < k ∧ here = List.replicate k '(' ++ List.replicate k ')'
  -- an end of the fragment on one side at most, bars on the others
  | .emptyAlternative =>
    here = [] ∧ IsMatched before ∧
      (before.getLast? = some '|' ∨ before = []) ∧ (behind.head? = some '|' ∨ behind = []) ∧
      (before.getLast? = some '|' ∨ behind.head? = some '|')

/-- The fragment is the part of `text` from some `a` to some `b`, the span lies between them, and
there stands the defect. -/
def StructuralFault.PointsInto (text : List Char) (fault : StructuralFault) : Prop :=
  ∃ a b, a ≤ fault.span.start ∧ fault.span.start ≤ fault.span.stop ∧ fault.span.stop ≤ b ∧
    b ≤ text.length ∧ fault.fragment = String.ofList (text.extract a b) ∧
    fault.defect.StandsAt fault.span.start (text.extract a fault.span.start)
      (text.extract fault.span.start fault.span.stop) (text.extract fault.span.stop b)

/-! ## Parts of a text -/

/-- `part` stands in the text at `position`. -/
def SliceAt (text : List Char) (position : Nat) (part : List Char) : Prop :=
  ∃ front behind, text = front ++ (part ++ behind) ∧ front.length = position

section Slices

variable {text part first second : List Char} {position : Nat}

theorem SliceAt.left (h : SliceAt text position (first ++ second)) :
    SliceAt text position first := by
  obtain ⟨front, behind, rfl, hfront⟩ := h
  exact ⟨front, second ++ behind, by simp only [List.append_assoc], hfront⟩

theorem SliceAt.right (h : SliceAt text position (first ++ second)) :
    SliceAt text (position + first.length) second := by
  obtain ⟨front, behind, rfl, rfl⟩ := h
  exact ⟨front ++ first, behind, by simp only [List.append_assoc], List.length_append⟩

theorem SliceAt.le_length (h : SliceAt text position part) :
    position + part.length ≤ text.length := by
  obtain ⟨front, behind, rfl, rfl⟩ := h
  simp only [List.length_append]
  omega

theorem SliceAt.extract_eq (h : SliceAt text position part) :
    text.extract position (position + part.length) = part := by
  obtain ⟨front, behind, rfl, rfl⟩ := h
  rw [List.extract_eq_take_drop, List.drop_left, Nat.add_sub_cancel_left, List.take_left]

theorem SliceAt.isInfix (h : SliceAt text position part) : part <:+: text := by
  obtain ⟨front, behind, rfl, -⟩ := h
  exact ⟨front, behind, List.append_assoc ..⟩

end Slices

/-! ## Where a stretch lies -/

/-- What is known of a stretch that is read as a part of `text`. -/
structure Stretch.Located (text : List Char) (s : Stretch) : Prop where
  slice : SliceAt text s.start s.layout.spelling
  ne_nil : s.layout.spelling ≠ []
  proper : s.layout.nodes.Proper
  marker : s.layout.nodes.startsWithMarker = true → s.start = 0
  unclosed : ∀ rest, s.layout.unclosed = some rest → NeverCloses rest

theorem isMatched_spelling {b : Bracketed} (hb : b.Proper) : IsMatched b.spelling := ⟨b, hb, rfl⟩

theorem unclosed_push {c : Char} {text rest : List Char} {l : Layout}
    (h : (l.push c text).unclosed = some rest) :
    l.unclosed = some rest ∨ (l.strays = [] ∧ text = rest) := by
  obtain ⟨nodes, strays, unclosed⟩ := l
  by_cases hopen : c = '('
  · subst hopen
    cases strays with
    | nil => exact .inr ⟨rfl, Option.some.inj h⟩
    | cons after strays => exact .inl h
  · by_cases hclose : c = ')'
    · subst hclose
      exact .inl h
    · exact .inl (by simpa [Layout.push, hopen] using h)

/-- Behind a bracket that is never closed, no closing bracket is without partner. -/
theorem strays_of_unclosed {text rest : List Char} (h : (Layout.ofText text).unclosed = some rest) :
    (Layout.ofText rest).strays = [] := by
  induction text with
  | nil => exact absurd h (by simp [Layout.ofText])
  | cons c others ih =>
    rcases unclosed_push h with h | ⟨hstrays, rfl⟩
    · exact ih h
    · exact hstrays

/-- Cutting a text at its brackets calls one unclosed only if nothing closes it. -/
theorem neverCloses_of_unclosed {text rest : List Char}
    (h : (Layout.ofText text).unclosed = some rest) : NeverCloses rest := by
  intro inside behind hinside heq
  obtain ⟨b, hb, rfl⟩ := hinside
  -- what closes the bracket would be the first stray one behind it
  have hstrays := strays_of_unclosed h
  rw [heq, Layout.ofText_append hb] at hstrays
  exact absurd hstrays (by simp [Layout.ofText, Layout.push])

theorem located_ofText {text : List Char} (hne : text ≠ []) :
    (Stretch.ofText text).Located (collapse text) := by
  have hspelling : (Stretch.ofText text).layout.spelling = collapse text :=
    Layout.spelling_ofText (collapse text)
  refine ⟨⟨[], [], ?_, rfl⟩, ?_, (Layout.proper_ofText _).1, fun _ => rfl, ?_⟩
  · rw [hspelling, List.append_nil, List.nil_append]
  · rw [hspelling]
    exact fun h => hne (collapse_eq_nil_iff.mp h)
  · exact fun rest h => neverCloses_of_unclosed h

theorem Bracketed.spelling_ne_nil {b : Bracketed} (h : b ≠ .nil) : b.spelling ≠ [] := by
  cases b with
  | nil => exact absurd rfl h
  | sign c rest => simp
  | group inside rest => simp

theorem spelling_matched (start : Nat) (b : Bracketed) :
    (matched start b).layout.spelling = b.spelling :=
  List.append_nil _

theorem located_matched {text : List Char} {position : Nat} {b : Bracketed}
    (hslice : SliceAt text position b.spelling) (hne : b ≠ .nil) (hproper : b.Proper)
    (hmarker : b.startsWithMarker = true → position = 0) : (matched position b).Located text := by
  refine ⟨?_, ?_, hproper, hmarker, fun rest h => absurd h (by simp [matched])⟩
  · rw [spelling_matched]
    exact hslice
  · rw [spelling_matched]
    exact Bracketed.spelling_ne_nil hne

section Located

variable {text : List Char} {s : Stretch}

/-- A fault of a stretch points into the text if the defect stands in the stretch. -/
theorem Stretch.Located.pointsInto (hs : s.Located text) (before here behind : List Char)
    {defect : Defect} (hsplit : s.layout.spelling = before ++ (here ++ behind))
    (h : defect.StandsAt (s.start + before.length) before here behind) :
    (s.fault defect ⟨s.start + before.length, s.start + before.length + here.length⟩).PointsInto
      text := by
  have hslice := hs.slice
  rw [hsplit] at hslice
  have hlength : s.start + (before ++ (here ++ behind)).length =
      s.start + before.length + here.length + behind.length := by
    simp only [List.length_append]
    omega
  have hbehind := hslice.right.right.extract_eq
  rw [← hlength] at hbehind
  refine ⟨s.start, s.start + (before ++ (here ++ behind)).length, Nat.le_add_right ..,
    Nat.le_add_right .., ?_, hslice.le_length, ?_, ?_⟩
  · rw [hlength]
    exact Nat.le_add_right ..
  · rw [hslice.extract_eq, ← hsplit]
    rfl
  · show defect.StandsAt (s.start + before.length) (text.extract s.start (s.start + before.length))
      (text.extract (s.start + before.length) (s.start + before.length + here.length))
      (text.extract (s.start + before.length + here.length) _)
    rw [hslice.left.extract_eq, hslice.right.left.extract_eq, hbehind]
    exact h

end Located

/-! ## Markers behind opening brackets -/

/-- A marker stands `distance` characters into the text, directly behind an opening bracket. -/
def OpenMarkerAt (text : List Char) (distance : Nat) : Prop :=
  ∃ before behind, text = before ++ '^' :: behind ∧ before.getLast? = some '(' ∧
    before.length = distance

section Markers

variable {text : List Char} {distance : Nat}

theorem OpenMarkerAt.append_left (h : OpenMarkerAt text distance) (front : List Char) :
    OpenMarkerAt (front ++ text) (front.length + distance) := by
  obtain ⟨before, behind, rfl, hlast, rfl⟩ := h
  refine ⟨front ++ before, behind, (List.append_assoc ..).symm, ?_, List.length_append⟩
  rw [List.getLast?_append, hlast]
  rfl

theorem OpenMarkerAt.cons (h : OpenMarkerAt text distance) (c : Char) :
    OpenMarkerAt (c :: text) (distance + 1) := by
  rw [Nat.add_comm]
  exact h.append_left [c]

theorem OpenMarkerAt.append_right (h : OpenMarkerAt text distance) (rear : List Char) :
    OpenMarkerAt (text ++ rear) distance := by
  obtain ⟨before, behind, rfl, hlast, hlength⟩ := h
  exact ⟨before, behind ++ rear, List.append_assoc .., hlast, hlength⟩

theorem openMarkerAt_of_markerBehindOpen (h : markerBehindOpen text = some distance) :
    OpenMarkerAt text distance := by
  fun_induction markerBehindOpen text generalizing distance with
  | case1 rest =>
    obtain rfl : 1 = distance := Option.some.inj h
    exact ⟨['('], rest, rfl, rfl, rfl⟩
  | case2 c rest _ ih =>
    obtain ⟨d, hd, rfl⟩ := Option.map_eq_some_iff.mp h
    exact (ih hd).cons c
  | case3 => exact absurd h (by simp)

theorem exists_of_startsWithMarker {b : Bracketed} (h : b.startsWithMarker = true) :
    ∃ rest, b = .sign '^' rest := by
  rw [Bracketed.startsWithMarker.eq_def] at h
  split at h
  · next rest => exact ⟨rest, rfl⟩
  · exact absurd h (by simp)

theorem openMarkerAt_group {inside : Bracketed} (h : inside.startsWithMarker = true)
    (rest : Bracketed) : OpenMarkerAt (Bracketed.group inside rest).spelling 1 := by
  obtain ⟨behind, rfl⟩ := exists_of_startsWithMarker h
  exact ⟨['('], behind.spelling ++ ')' :: rest.spelling, by simp, rfl, rfl⟩

theorem Stretch.Located.pointsInto_marker {s : Stretch} (hs : s.Located text)
    (h : OpenMarkerAt s.layout.spelling distance) :
    (s.fault .markerAfterOpen (.single (s.start + distance))).PointsInto text := by
  obtain ⟨before, behind, hsplit, hlast, rfl⟩ := h
  exact hs.pointsInto before ['^'] behind hsplit ⟨rfl, hlast⟩

end Markers

/-! ## Walking through a stretch -/

/-- A stretch is read from left to right: `done` lies behind, `left` from `position` on. -/
structure Stretch.LeftAt (s : Stretch) (position : Nat) (done left : Bracketed) : Prop where
  nodes : done.append left = s.layout.nodes
  position_eq : position = s.start + done.width

section Walk

variable {text : List Char} {s : Stretch} {position : Nat} {done first left : Bracketed}

theorem leftAt_start (s : Stretch) : s.LeftAt s.start .nil s.layout.nodes := ⟨rfl, rfl⟩

theorem Stretch.LeftAt.skip (first : Bracketed) (h : s.LeftAt position done (first.append left)) :
    s.LeftAt (position + first.width) (done.append first) left := by
  refine ⟨?_, ?_⟩
  · rw [Bracketed.append_assoc, h.nodes]
  · rw [h.position_eq, Bracketed.width_append, Nat.add_assoc]

theorem Stretch.LeftAt.proper (h : s.LeftAt position done left) (hs : s.Located text) :
    done.Proper ∧ left.Proper := by
  rw [← Bracketed.proper_append, h.nodes]
  exact hs.proper

theorem Stretch.LeftAt.spelling_eq (h : s.LeftAt position done left) :
    s.layout.spelling = done.spelling ++ (left.spelling ++ s.layout.tail) := by
  rw [Layout.spelling, ← h.nodes, Bracketed.spelling_append, List.append_assoc]

theorem Stretch.LeftAt.slice (h : s.LeftAt position done left) (hs : s.Located text) :
    SliceAt text position left.spelling := by
  have hslice := hs.slice
  rw [h.spelling_eq] at hslice
  rw [h.position_eq, ← Bracketed.length_spelling]
  exact hslice.right.left

/-- The next piece of what is left, taken as a stretch of its own. -/
theorem Stretch.LeftAt.located (h : s.LeftAt position done (first.append left))
    (hs : s.Located text) (hne : first ≠ .nil)
    (hmarker : first.startsWithMarker = true → position = 0) :
    (matched position first).Located text := by
  have hslice := h.slice hs
  rw [Bracketed.spelling_append] at hslice
  have hproper := (h.proper hs).2
  rw [Bracketed.proper_append] at hproper
  exact located_matched hslice.left hne hproper.1 hmarker

/-- A fault that is found on the way, between what is done and what is left. -/
theorem Stretch.LeftAt.pointsInto (h : s.LeftAt position done left) (hs : s.Located text)
    (here behind : List Char) {defect : Defect}
    (hsplit : left.spelling ++ s.layout.tail = here ++ behind)
    (hstands : defect.StandsAt position done.spelling here behind) :
    (s.fault defect ⟨position, position + here.length⟩).PointsInto text := by
  have hposition : position = s.start + done.spelling.length := by
    rw [Bracketed.length_spelling, h.position_eq]
  subst hposition
  exact hs.pointsInto done.spelling here behind (by rw [h.spelling_eq, hsplit]) hstands

theorem Stretch.LeftAt.pointsInto_marker (h : s.LeftAt position done left) (hs : s.Located text)
    {distance : Nat} (hmarker : OpenMarkerAt (left.spelling ++ s.layout.tail) distance) :
    (s.fault .markerAfterOpen (.single (position + distance))).PointsInto text := by
  have hmarker := hmarker.append_left done.spelling
  rw [← h.spelling_eq, Bracketed.length_spelling] at hmarker
  rw [h.position_eq, Nat.add_assoc]
  exact hs.pointsInto_marker hmarker

theorem markerFault?_points (h : s.LeftAt position done (first.append left)) (hs : s.Located text)
    {fault : StructuralFault} (hfault : s.markerFault? position first = some fault) :
    fault.PointsInto text := by
  obtain ⟨distance, hdistance, rfl⟩ := Option.map_eq_some_iff.mp hfault
  refine h.pointsInto_marker hs ?_
  rw [Bracketed.spelling_append, List.append_assoc]
  exact (openMarkerAt_of_markerBehindOpen hdistance).append_right _

/-- What is wrong behind the matched text: nothing of it is left there. -/
theorem tailFault?_points (h : s.LeftAt position done .nil) (hs : s.Located text)
    {fault : StructuralFault} (hfault : s.tailFault? position = some fault) :
    fault.PointsInto text := by
  have hdone : IsMatched done.spelling := isMatched_spelling (h.proper hs).1
  rw [tailFault?] at hfault
  split at hfault
  · next after strays hstrays =>
    obtain rfl := Option.some.inj hfault
    refine h.pointsInto hs [')']
      (after.spelling ++ Layout.spellStrays strays ++ Layout.spellUnclosed s.layout.unclosed) ?_
      ⟨rfl, hdone⟩
    rw [Layout.tail, hstrays]
    rfl
  · next rest hstrays hunclosed =>
    have htail : s.layout.tail = '(' :: rest := by
      rw [Layout.tail, hstrays, hunclosed]
      rfl
    split at hfault
    · next distance hmarker =>
      obtain rfl := Option.some.inj hfault
      refine h.pointsInto_marker hs ?_
      rw [htail]
      exact openMarkerAt_of_markerBehindOpen hmarker
    · obtain rfl := Option.some.inj hfault
      have hstop : s.stop = position + ('(' :: rest).length := by
        rw [stop, h.spelling_eq, htail, h.position_eq, List.length_append,
          Bracketed.length_spelling, Nat.add_assoc]
        rfl
      rw [hstop]
      refine h.pointsInto hs ('(' :: rest) [] ?_
        ⟨hdone, ⟨rest, rfl, hs.unclosed rest hunclosed⟩, rfl⟩
      rw [htail, List.append_nil]
      rfl
  · exact absurd hfault (by simp)

end Walk

end CaretAutomata.Pattern

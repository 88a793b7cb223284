import CaretAutomata.Proofs.Pattern.Scanning

/-!
# Keeping count of open brackets

All scans keep count in the same way. Behind matched text the count is as it was, unless a marker
behind an opening bracket ended the scan (`CountsBrackets.through`, `closingFrom_spelling`). So a
scan knows the group that ends at a bracket, and at the end of its stretch the bracket that was
never closed (`CountsBrackets.neverCloses`). From the cut at the brackets it is known beforehand
where this will be: what is wrong behind the matched text is what the scan finds there
(`CountsBrackets.tail`).
-/

namespace CaretAutomata.Pattern

open Stretch

/-- A scan ends with a fault, or goes on. -/
def endOr {α : Type} (fault : Option StructuralFault)
    (goOn : Option (List α × Option StructuralFault)) : Option (List α × Option StructuralFault) :=
  match fault with
  | some fault => some (endedBy fault)
  | none => goOn

theorem endOr_or {α : Type} (first second : Option StructuralFault)
    (goOn : Option (List α × Option StructuralFault)) :
    endOr (first <|> second) goOn = endOr first (endOr second goOn) := by
  cases first <;> rfl

section Widths

variable (position : Nat)

theorem Bracketed.add_width_sign (c : Char) (others : Bracketed) :
    position + (sign c others).width = position + 1 + others.width := by
  rw [width]
  omega

theorem Bracketed.add_width_group (inside others : Bracketed) :
    position + (group inside others).width =
      position + 1 + inside.width + 1 + others.width := by
  rw [width]
  omega

end Widths

section Markers

variable {s : Stretch} {position : Nat}

theorem head?_spelling_eq {b : Bracketed} {rest : List Char} (h : rest.head? ≠ some '^') :
    ((b.spelling ++ rest).head? == some '^') = b.startsWithMarker := by
  cases b with
  | nil =>
    rw [Bracketed.spelling_nil, List.nil_append]
    exact beq_false_of_ne h
  | group inside others => simp [Bracketed.startsWithMarker]
  | sign c others =>
    by_cases hc : c = '^'
    · subst hc
      rfl
    · rw [Bracketed.startsWithMarker.eq_2]
      · simpa using hc
      · simpa using hc

/-- The fault of the first marker directly behind an opening bracket of a text at `position`. -/
def Stretch.markerFaultIn? (s : Stretch) (position : Nat) (text : List Char) :
    Option StructuralFault :=
  (markerBehindOpen text).map fun distance =>
    s.fault .markerAfterOpen (.single (position + distance))

theorem markerFaultIn?_cons (c : Char) (rest : List Char) :
    s.markerFaultIn? position (c :: rest) =
      if c = '(' ∧ rest.head? = some '^' then
        some (s.fault .markerAfterOpen (.single (position + 1)))
      else s.markerFaultIn? (position + 1) rest := by
  rw [markerFaultIn?, markerBehindOpen.eq_def]
  split
  · next heq =>
    obtain ⟨rfl, rfl⟩ := List.cons.inj heq
    rfl
  · next hne heq =>
    obtain ⟨rfl, rfl⟩ := List.cons.inj heq
    rw [if_neg]
    · rw [Option.map_map, markerFaultIn?]
      congr 1
      funext distance
      rw [Function.comp_apply, Nat.add_assoc, Nat.add_comm 1]
    · intro h
      obtain ⟨rfl, hhead⟩ := h
      obtain ⟨others, rfl⟩ := List.head?_eq_some_iff.mp hhead
      exact hne others rfl rfl
  · next heq => exact absurd heq (by simp)

theorem markerFaultIn?_cons_of_ne {c : Char} (hc : c ≠ '(') (rest : List Char) :
    s.markerFaultIn? position (c :: rest) = s.markerFaultIn? (position + 1) rest := by
  rw [markerFaultIn?_cons, if_neg fun h => hc h.1]

theorem markerFaultIn?_open (rest : List Char) : s.markerFaultIn? position ('(' :: rest) =
    if rest.head? == some '^' then some (s.fault .markerAfterOpen (.single (position + 1)))
    else s.markerFaultIn? (position + 1) rest := by
  rw [markerFaultIn?_cons]
  simp

/-- Matched text ends with no opening bracket, so what stands behind it is searched apart. -/
theorem markerFaultIn?_append {b : Bracketed} (hb : b.Proper) (rest : List Char) :
    s.markerFaultIn? position (b.spelling ++ rest) =
      (s.markerFault? position b <|> s.markerFaultIn? (position + b.width) rest) := by
  show _ = (s.markerFaultIn? position b.spelling <|> _)
  induction b generalizing position rest with
  | nil => rfl
  | sign c others ih =>
    obtain ⟨hopen, -, hothers⟩ := hb
    rw [Bracketed.spelling_sign, List.cons_append, markerFaultIn?_cons_of_ne hopen,
      markerFaultIn?_cons_of_ne hopen, ih hothers, Bracketed.add_width_sign]
  | group inside others ihInside ihOthers =>
    obtain ⟨hinside, hothers⟩ := hb
    rw [Bracketed.spelling_group, List.cons_append, List.append_assoc, List.cons_append,
      markerFaultIn?_open, markerFaultIn?_open, head?_spelling_eq (by simp),
      head?_spelling_eq (by simp)]
    cases inside.startsWithMarker with
    | true => rfl
    | false =>
      rw [if_neg Bool.false_ne_true, if_neg Bool.false_ne_true, ihInside hinside, ihInside hinside,
        markerFaultIn?_cons_of_ne (by decide), markerFaultIn?_cons_of_ne (by decide),
        ihOthers hothers, Bracketed.add_width_group]
      cases s.markerFaultIn? (position + 1) inside.spelling <;> rfl

theorem markerFault?_group {inside : Bracketed} (hinside : inside.Proper) (rest : Bracketed) :
    s.markerFault? position (.group inside rest) =
      if inside.startsWithMarker then some (s.fault .markerAfterOpen (.single (position + 1)))
      else (s.markerFault? (position + 1) inside <|>
        s.markerFault? (position + 1 + inside.width + 1) rest) := by
  show s.markerFaultIn? position _ = _
  rw [Bracketed.spelling_group, markerFaultIn?_open, head?_spelling_eq (by simp),
    markerFaultIn?_append hinside, markerFaultIn?_cons_of_ne (by decide)]
  rfl

theorem tailFault?_of_unclosed {rest : List Char} (hstrays : s.layout.strays = [])
    (hunclosed : s.layout.unclosed = some rest) : s.tailFault? position =
      (s.markerFaultIn? position ('(' :: rest) <|>
        some (s.fault .missingClose ⟨position, s.stop⟩)) := by
  rw [tailFault?, hstrays, hunclosed, markerFaultIn?]
  cases hmarker : markerBehindOpen ('(' :: rest) <;> simp only [hmarker] <;> rfl

end Markers

/-- How a scan of a stretch keeps count, when `level` brackets are open, the outermost one at
`opened`. -/
structure CountsBrackets {α : Type} (text : List Char) (s : Stretch)
    (scan : (position level : Nat) → (opened : Option Nat) →
      Option (List α × Option StructuralFault)) : Prop where
  opening : ∀ {position rest} (level opened), Ahead text s.stop position ('(' :: rest) →
    scan position level opened =
      if rest.head? == some '^' then
        some (endedBy (s.fault .markerAfterOpen (.single (position + 1))))
      else scan (position + 1) (level + 1) (if level = 0 then some position else opened)
  closing : ∀ {position rest} (level opened), Ahead text s.stop position (')' :: rest) →
    scan position (level + 2) opened = scan (position + 1) (level + 1) opened
  sign : ∀ {position c rest} (level opened), c ≠ '(' → c ≠ ')' →
    Ahead text s.stop position (c :: rest) →
    scan position (level + 1) opened = scan (position + 1) (level + 1) opened
  stray : ∀ {position rest} (opened), Ahead text s.stop position (')' :: rest) →
    scan position 0 opened = some (endedBy (s.fault .unexpectedClose (.single position)))
  unclosed : ∀ level first,
    scan s.stop level (some first) = some (endedBy (s.fault .missingClose ⟨first, s.stop⟩))

namespace CountsBrackets

variable {α : Type} {text : List Char} {s : Stretch} {position : Nat}
  {scan : (position level : Nat) → (opened : Option Nat) → Option (List α × Option StructuralFault)}

/-- Matched text inside a group leaves the count as it was. -/
theorem through (h : CountsBrackets text s scan) {b : Bracketed} (hb : b.Proper)
    (level : Nat) (opened : Option Nat) {rest : List Char}
    (hahead : Ahead text s.stop position (b.spelling ++ rest)) :
    scan position (level + 1) opened =
      endOr (s.markerFault? position b) (scan (position + b.width) (level + 1) opened) := by
  induction b generalizing position level rest with
  | nil => rfl
  | sign c others ih =>
    obtain ⟨hopen, hclose, hothers⟩ := hb
    rw [Bracketed.spelling_sign, List.cons_append] at hahead
    rw [h.sign level opened hopen hclose hahead, ih hothers level hahead.next,
      Bracketed.add_width_sign]
    exact congrArg (endOr · _) (markerFaultIn?_cons_of_ne hopen _).symm
  | group inside others ihInside ihOthers =>
    obtain ⟨hinside, hothers⟩ := hb
    rw [Bracketed.spelling_group, List.cons_append, List.append_assoc, List.cons_append] at hahead
    have hclosing := hahead.next.through
    rw [h.opening (level + 1) opened hahead, head?_spelling_eq (by simp),
      markerFault?_group hinside]
    cases inside.startsWithMarker with
    | true => rfl
    | false =>
      rw [if_neg Bool.false_ne_true, if_neg Bool.false_ne_true, if_neg (Nat.succ_ne_zero level),
        ihInside hinside (level + 1) hahead.next, h.closing level opened hclosing,
        ihOthers hothers level hclosing.next, endOr_or, Bracketed.add_width_group]

/-- From a bracket that nothing closes, the scan comes to the end of the stretch. -/
theorem neverCloses (h : CountsBrackets text s scan) {first : Nat} : ∀ (rest : List Char)
    (position level : Nat) (opened : Option Nat), (Layout.ofText rest).strays = [] →
    (if level = 0 then some position else opened) = some first →
    Ahead text s.stop position ('(' :: rest) →
    scan position level opened = endOr (s.markerFaultIn? position ('(' :: rest))
      (some (endedBy (s.fault .missingClose ⟨first, s.stop⟩))) := by
  intro rest
  induction hlength : rest.length using Nat.strongRecOn generalizing rest with
  | _ n ih =>
    intro position level opened hstrays hfirst hahead
    have hproper := (Layout.proper_ofText rest).1
    have hspelling := Layout.spelling_ofText rest
    rw [Layout.spelling] at hspelling
    have hnext : Ahead text s.stop (position + 1)
        ((Layout.ofText rest).nodes.spelling ++ (Layout.ofText rest).tail) := by
      rw [hspelling]
      exact hahead.next
    have hmarker : s.markerFaultIn? (position + 1) rest =
        (s.markerFault? (position + 1) (Layout.ofText rest).nodes <|>
          s.markerFaultIn? (position + 1 + (Layout.ofText rest).nodes.width)
            (Layout.ofText rest).tail) := by
      rw [← markerFaultIn?_append hproper, hspelling]
    rw [h.opening level opened hahead, hfirst, markerFaultIn?_open, hmarker]
    cases rest.head? == some '^' with
    | true => rfl
    | false =>
      have htail := hnext.through
      rw [if_neg Bool.false_ne_true, if_neg Bool.false_ne_true,
        h.through hproper level (some first) hnext, endOr_or]
      congr 1
      cases hunclosed : (Layout.ofText rest).unclosed with
      | none =>
        rw [Unmatched.tail_of_complete hstrays hunclosed] at htail ⊢
        rw [htail.eq_stop, h.unclosed]
        rfl
      | some behind =>
        rw [Unmatched.tail_of_unclosed hstrays hunclosed] at htail hspelling ⊢
        have hshorter := congrArg List.length hspelling
        rw [List.length_append, List.length_cons] at hshorter
        exact ih behind.length (by omega) behind rfl _ _ _ (strays_of_unclosed hunclosed)
          (if_neg (Nat.succ_ne_zero level)) htail

/-- What is wrong behind the matched text is what the scan finds there. -/
theorem tail (h : CountsBrackets text s scan) (hs : s.CutFrom text)
    (hahead : Ahead text s.stop position s.layout.tail) {fault : StructuralFault}
    (hfault : s.tailFault? position = some fault) :
    scan position 0 none = some (endedBy fault) := by
  cases hstrays : s.layout.strays with
  | cons after strays =>
    rw [tailFault?, hstrays] at hfault
    rw [Layout.tail, hstrays] at hahead
    rw [h.stray none hahead, Option.some.inj hfault]
  | nil =>
    cases hunclosed : s.layout.unclosed with
    | none =>
      rw [tailFault?, hstrays, hunclosed] at hfault
      exact absurd hfault (by simp)
    | some rest =>
      have hbehind : (Layout.ofText rest).strays = [] := by
        rw [hs.layout] at hunclosed
        exact strays_of_unclosed hunclosed
      rw [Layout.tail, hstrays, hunclosed] at hahead
      rw [tailFault?_of_unclosed hstrays hunclosed] at hfault
      rw [h.neverCloses rest position 0 none hbehind rfl hahead]
      cases hmarker : s.markerFaultIn? position ('(' :: rest) with
      | none =>
        rw [hmarker] at hfault
        rw [← Option.some.inj hfault]
        rfl
      | some found =>
        rw [hmarker] at hfault
        rw [← Option.some.inj hfault]
        rfl

end CountsBrackets

/-! ## The bracket that closes another one -/

section Closing

variable {text rest : List Char} {position : Nat}

theorem closingFrom_sign {c : Char} (hopen : c ≠ '(') (hclose : c ≠ ')') (level : Nat) :
    closingFrom level position (c :: rest) = closingFrom level (position + 1) rest := by
  rw [closingFrom]
  · exact hopen
  · exact hclose

/-- Matched text inside a group does not close it. -/
theorem closingFrom_spelling {b : Bracketed} (hb : b.Proper) (level : Nat) (rest : List Char) :
    closingFrom (level + 1) position (b.spelling ++ rest) =
      closingFrom (level + 1) (position + b.width) rest := by
  induction b generalizing position level rest with
  | nil => rfl
  | sign c others ih =>
    obtain ⟨hopen, hclose, hothers⟩ := hb
    rw [Bracketed.spelling_sign, List.cons_append, closingFrom_sign hopen hclose, ih hothers,
      Bracketed.add_width_sign]
  | group inside others ihInside ihOthers =>
    obtain ⟨hinside, hothers⟩ := hb
    rw [Bracketed.spelling_group, List.cons_append, List.append_assoc, List.cons_append,
      closingFrom, ihInside hinside, closingFrom, Nat.add_sub_cancel, if_neg (Nat.succ_ne_zero _),
      ihOthers hothers, Bracketed.add_width_group]

theorem closingFrom_group {inside : Bracketed} (hinside : inside.Proper) (rest : List Char) :
    closingFrom 0 position ('(' :: (inside.spelling ++ ')' :: rest)) =
      some (position + 1 + inside.width) := by
  rw [closingFrom, closingFrom_spelling hinside, closingFrom]
  rfl

theorem closingFrom_eq_none : ∀ (text : List Char) (position level : Nat),
    (Layout.ofText text).strays = [] → closingFrom (level + 1) position text = none := by
  intro text
  induction hlength : text.length using Nat.strongRecOn generalizing text with
  | _ n ih =>
    intro position level hstrays
    have hspelling := Layout.spelling_ofText text
    rw [Layout.spelling] at hspelling
    rw [← hspelling, closingFrom_spelling (Layout.proper_ofText text).1]
    cases hunclosed : (Layout.ofText text).unclosed with
    | none =>
      rw [Unmatched.tail_of_complete hstrays hunclosed]
      rfl
    | some rest =>
      rw [Unmatched.tail_of_unclosed hstrays hunclosed] at hspelling ⊢
      have hshorter := congrArg List.length hspelling
      rw [List.length_append, List.length_cons] at hshorter
      rw [closingFrom]
      exact ih rest.length (by omega) rest rfl _ _ (strays_of_unclosed hunclosed)

/-- What stands in front of the bracket that closes another one is matched. -/
theorem exists_of_closingFrom {closing : Nat}
    (h : closingFrom 0 position ('(' :: text) = some closing) :
    ∃ (inside : Bracketed) (rest : List Char), inside.Proper ∧
      text = inside.spelling ++ ')' :: rest ∧ closing = position + 1 + inside.width := by
  rw [closingFrom] at h
  cases hstrays : (Layout.ofText text).strays with
  | nil =>
    rw [closingFrom_eq_none text _ 0 hstrays] at h
    exact absurd h (by simp)
  | cons after strays =>
    have hproper := (Layout.proper_ofText text).1
    have hspelling := Layout.spelling_ofText text
    rw [Layout.spelling, Layout.tail, hstrays, Layout.spellStrays, List.cons_append] at hspelling
    rw [← hspelling, closingFrom_spelling hproper, closingFrom] at h
    exact ⟨_, _, hproper, hspelling.symm, (Option.some.inj h).symm⟩

end Closing

end CaretAutomata.Pattern

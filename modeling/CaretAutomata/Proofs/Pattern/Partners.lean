import CaretAutomata.Proofs.Pattern.Defects

/-!
# Brackets without partner

Which brackets of a text have no partner is found with a stack: an opening bracket is put on it, a
closing one takes the top off. `Unmatched` keeps what this leaves — the closing brackets that met an
empty stack, and the opening ones that are on the stack in the end. Nothing in the reading of a
pattern has such a stack. A text is cut at its brackets from the right (`Layout.ofText`), and the
faults that name a bracket are raised behind the matched part of it (`Stretch.tailFault?`).

`scan_spelling` is the link between the two: what is matched leaves the stack as it was. So the cut
knows the leftmost bracket without partner (`closing_of_strays`, `opening_of_unclosed`). That no
other bracket is ever reported is a matter of where these faults can arise at all. Every stretch
inside a pattern is matched text (`isComplete_of_mem_stretches`), and there nothing is wrong behind
the matched part; only the whole pattern is left.
-/

namespace CaretAutomata.Pattern

open Stretch

/-! ## Matching with a stack -/

/-- The positions of the brackets without partner, the leftmost ones first. -/
structure Unmatched where
  closing : List Nat
  opening : List Nat
  deriving DecidableEq, Repr

namespace Unmatched

/-- Goes through a text from `position` on. The stack holds the brackets that are open, the innermost
one on top; a closing bracket takes it off, and has no partner if the stack is empty. -/
def scan : (position : Nat) → (stack : List Nat) → List Char → Unmatched
  | _, stack, [] => ⟨[], stack.reverse⟩
  | position, stack, '(' :: rest => scan (position + 1) (position :: stack) rest
  | position, _ :: stack, ')' :: rest => scan (position + 1) stack rest
  | position, [], ')' :: rest =>
    let behind := scan (position + 1) [] rest
    { behind with closing := position :: behind.closing }
  | position, stack, _ :: rest => scan (position + 1) stack rest

def ofText (text : List Char) : Unmatched := scan 0 [] text

end Unmatched

/-- Every bracket of the text has a partner. -/
def Balanced (text : List Char) : Prop := Unmatched.ofText text = ⟨[], []⟩

instance (text : List Char) : Decidable (Balanced text) :=
  inferInstanceAs (Decidable (Unmatched.ofText text = ⟨[], []⟩))

namespace Unmatched

variable {text rest : List Char} {position : Nat} {stack : List Nat}

theorem scan_sign {c : Char} (hopen : c ≠ '(') (hclose : c ≠ ')') :
    scan position stack (c :: rest) = scan (position + 1) stack rest := by
  rw [scan]
  · exact hopen
  · exact fun _ _ _ => hclose
  · exact fun _ => hclose

/-- Matched text leaves the stack as it was. -/
theorem scan_spelling {b : Bracketed} (hb : b.Proper) (position : Nat) (stack : List Nat)
    (rest : List Char) :
    scan position stack (b.spelling ++ rest) = scan (position + b.width) stack rest := by
  induction b generalizing position stack rest with
  | nil => rfl
  | sign c others ih =>
    obtain ⟨hopen, hclose, hothers⟩ := hb
    rw [Bracketed.spelling_sign, List.cons_append, scan_sign hopen hclose, ih hothers]
    rw [Bracketed.width, Nat.add_right_comm, Nat.add_assoc]
  | group inside others ihInside ihOthers =>
    obtain ⟨hinside, hothers⟩ := hb
    rw [Bracketed.spelling_group, List.cons_append, List.append_assoc, List.cons_append]
    rw [scan, ihInside hinside, scan, ihOthers hothers]
    congr 1
    rw [Bracketed.width]
    omega

/-! ### What the cut at the brackets knows of it -/

theorem scan_ofText (text : List Char) (position : Nat) (stack : List Nat) :
    scan position stack text =
      scan (position + (Layout.ofText text).nodes.width) stack (Layout.ofText text).tail := by
  have hspelling := Layout.spelling_ofText text
  rw [Layout.spelling] at hspelling
  conv => lhs; rw [← hspelling]
  exact scan_spelling (Layout.proper_ofText text).1 position stack _

theorem tail_of_unclosed (hstrays : (Layout.ofText text).strays = [])
    (h : (Layout.ofText text).unclosed = some rest) : (Layout.ofText text).tail = '(' :: rest := by
  rw [Layout.tail, hstrays, h]
  rfl

theorem tail_of_complete (hstrays : (Layout.ofText text).strays = [])
    (h : (Layout.ofText text).unclosed = none) : (Layout.ofText text).tail = [] := by
  rw [Layout.tail, hstrays, h]
  rfl

/-- Where no closing bracket is without partner, what was on the stack stays there. -/
theorem exists_scan_of_strays : ∀ (text : List Char) (position : Nat) (stack : List Nat),
    (Layout.ofText text).strays = [] →
    ∃ others, scan position stack text = ⟨[], stack.reverse ++ others⟩ := by
  intro text
  induction hlength : text.length using Nat.strongRecOn generalizing text with
  | _ n ih =>
    intro position stack hstrays
    rw [scan_ofText]
    cases hunclosed : (Layout.ofText text).unclosed with
    | none =>
      rw [tail_of_complete hstrays hunclosed]
      exact ⟨[], by rw [scan, List.append_nil]⟩
    | some rest =>
      have htail := tail_of_unclosed hstrays hunclosed
      have hspelling := congrArg List.length (Layout.spelling_ofText text)
      rw [Layout.spelling, List.length_append, htail, List.length_cons] at hspelling
      -- the bracket that is never closed goes on the stack, the text behind it is shorter
      obtain ⟨others, hothers⟩ := ih rest.length (by omega) rest rfl
        (position + (Layout.ofText text).nodes.width + 1)
        ((position + (Layout.ofText text).nodes.width) :: stack) (strays_of_unclosed hunclosed)
      rw [htail, scan, hothers, List.reverse_cons, List.append_assoc]
      exact ⟨_, rfl⟩

/-- The first closing bracket that the cut finds no partner for is the leftmost one without. -/
theorem closing_of_strays (h : (Layout.ofText text).strays ≠ []) :
    (ofText text).closing.head? = some (Layout.ofText text).nodes.width := by
  rw [ofText, scan_ofText, Nat.zero_add, Layout.tail]
  cases hstrays : (Layout.ofText text).strays with
  | nil => exact absurd hstrays h
  | cons after strays =>
    rw [Layout.spellStrays, List.cons_append, scan]
    rfl

/-- Without such a bracket, the opening bracket that the cut finds no partner for is the leftmost
one without. -/
theorem opening_of_unclosed (hstrays : (Layout.ofText text).strays = [])
    (h : (Layout.ofText text).unclosed = some rest) : (ofText text).closing = [] ∧
      (ofText text).opening.head? = some (Layout.ofText text).nodes.width := by
  obtain ⟨others, hothers⟩ := exists_scan_of_strays rest ((Layout.ofText text).nodes.width + 1)
    [(Layout.ofText text).nodes.width] (strays_of_unclosed h)
  rw [ofText, scan_ofText, Nat.zero_add, tail_of_unclosed hstrays h, scan, hothers]
  exact ⟨rfl, rfl⟩

theorem balanced_of_complete (hstrays : (Layout.ofText text).strays = [])
    (h : (Layout.ofText text).unclosed = none) : Balanced text := by
  rw [Balanced, ofText, scan_ofText, tail_of_complete hstrays h]
  rfl

end Unmatched

/-! ## Stretches in a pattern are matched text -/

section Stretches

variable {s inner : Stretch}

theorem isComplete_matched (start : Nat) (b : Bracketed) :
    (matched start b).layout.isComplete = true := rfl

theorem isComplete_of_mem_parts {position : Nat} {b : Bracketed}
    (h : .nested inner ∈ (s.parts position b).1) : inner.layout.isComplete = true := by
  fun_induction Stretch.parts s position b with
  | case1 position => exact absurd h List.not_mem_nil
  | case2 position rest => exact absurd h List.not_mem_nil
  | case3 position c rest _ ih | case4 position c rest _ _ ih =>
    cases h with
    | tail _ h => exact ih h
  | case5 position inside rest ih | case6 position inside rest _ ih =>
    rw [prependGroup] at h
    split at h
    · exact absurd h List.not_mem_nil
    · cases h with
      | head => exact isComplete_matched ..
      | tail _ h => exact ih h

theorem isComplete_of_mem_alternatives : ∀ {others : List Bracketed} {position : Nat}
    {first : Bracketed}, inner ∈ (s.alternatives position first others).1 →
    inner.layout.isComplete = true
  | [], position, first, h => by
    rw [Stretch.alternatives] at h
    split at h
    · exact absurd h List.not_mem_nil
    · rw [List.mem_singleton.mp h]
      exact isComplete_matched ..
  | second :: others, position, first, h => by
    rw [Stretch.alternatives] at h
    split at h
    · exact absurd h List.not_mem_nil
    · rcases List.mem_cons.mp h with rfl | h
      · exact isComplete_matched ..
      · exact isComplete_of_mem_alternatives h

theorem isComplete_of_mem_inner (h : inner ∈ s.inner.stretches) :
    inner.layout.isComplete = true := by
  unfold Stretch.inner at h
  split at h
  · exact isComplete_of_mem_alternatives h
  · obtain ⟨part, hpart, hinner⟩ := List.mem_filterMap.mp h
    cases part with
    | sign c => exact absurd hinner (by simp)
    | repeatedSign c => exact absurd hinner (by simp)
    | nested stretch =>
      obtain rfl : stretch = inner := Option.some.inj hinner
      exact isComplete_of_mem_parts hpart

/-- **All stretches that an outline names are matched text**, whatever the brackets of the stretch
itself. -/
theorem isComplete_of_mem_stretches (h : inner ∈ s.outline.stretches) :
    inner.layout.isComplete = true := by
  unfold Stretch.outline at h
  split at h
  · exact absurd h List.not_mem_nil
  · next body hgroup =>
    obtain ⟨inside, -, rfl⟩ := repeatedGroup_eq hgroup
    rw [List.mem_singleton.mp h]
    exact isComplete_matched ..
  · split at h
    · split at h
      · exact absurd h List.not_mem_nil
      · split at h
        · exact absurd h List.not_mem_nil
        · exact isComplete_of_mem_inner h
    · exact isComplete_of_mem_inner h

end Stretches

/-! ## Faults that name a bracket -/

/-- The defect is a bracket without partner. -/
def Defect.OfBracket : Defect → Prop
  | .unexpectedClose | .missingClose => True
  | _ => False

section Faults

variable {s : Stretch} {fault : StructuralFault}

theorem not_ofBracket_markerFault? {position : Nat} {text : Bracketed}
    (h : s.markerFault? position text = some fault) : ¬ fault.defect.OfBracket := by
  obtain ⟨distance, -, rfl⟩ := Option.map_eq_some_iff.mp h
  exact id

theorem not_ofBracket_emptinessFault? {position : Nat} {text : Bracketed}
    (h : s.emptinessFault? position text = some fault) : ¬ fault.defect.OfBracket := by
  unfold emptinessFault? at h
  split at h
  · rw [← Option.some.inj h]
    exact id
  · exact absurd h (by simp)

theorem not_ofBracket_barFault? {position : Nat} {text : Bracketed}
    (h : s.barFault? position text = some fault) : ¬ fault.defect.OfBracket := by
  unfold barFault? at h
  split at h
  · rw [← Option.some.inj h]
    exact id
  · exact absurd h (by simp)

/-- In a group no bracket is without partner. -/
theorem fault_of_prependGroup {position : Nat} {group : Bracketed}
    {behind : List Part × Option StructuralFault}
    (h : (s.prependGroup position group behind).2 = some fault)
    (hbracket : fault.defect.OfBracket) : behind.2 = some fault := by
  rw [prependGroup] at h
  split at h
  · next found hfound =>
    obtain rfl : found = fault := Option.some.inj h
    exact absurd hbracket (not_ofBracket_markerFault? hfound)
  · exact h

/-- In a sequence, a bracket without partner is found behind everything else. -/
theorem tailFault?_of_parts {position stop : Nat} {b : Bracketed}
    (h : (s.parts position b).2 = some fault) (hbracket : fault.defect.OfBracket)
    (hstop : position + b.width = stop) : s.tailFault? stop = some fault := by
  fun_induction Stretch.parts s position b with
  | case1 position =>
    rw [← hstop]
    exact h
  | case2 position rest =>
    rw [← Option.some.inj h] at hbracket
    exact hbracket.elim
  | case3 position c rest _ ih =>
    apply ih h
    rw [← hstop, Bracketed.width, Bracketed.width]
    omega
  | case4 position c rest _ _ ih =>
    apply ih h
    rw [← hstop, Bracketed.width]
    omega
  | case5 position inside rest ih =>
    apply ih (fault_of_prependGroup h hbracket)
    rw [← hstop, Bracketed.width, Bracketed.width]
    omega
  | case6 position inside rest _ ih =>
    apply ih (fault_of_prependGroup h hbracket)
    rw [← hstop, Bracketed.width]
    omega

/-- In a choice as well. -/
theorem tailFault?_of_alternatives (hbracket : fault.defect.OfBracket) :
    ∀ {others : List Bracketed} {position stop : Nat} {first : Bracketed},
    (s.alternatives position first others).2 = some fault →
    position + (joinAtBars first others).width = stop → s.tailFault? stop = some fault
  | [], position, stop, first, h, hstop => by
    rw [Stretch.alternatives] at h
    split at h
    · next found hfound =>
      obtain rfl : found = fault := Option.some.inj h
      rcases alternativeFault?_eq_some hfound with hmarker | htail | ⟨-, hempty⟩
      · exact absurd hbracket (not_ofBracket_markerFault? hmarker)
      · rw [← hstop]
        exact htail
      · exact absurd hbracket (not_ofBracket_emptinessFault? hempty)
    · exact absurd h (by simp)
  | second :: others, position, stop, first, h, hstop => by
    rw [Stretch.alternatives] at h
    split at h
    · next found hfound =>
      obtain rfl : found = fault := Option.some.inj h
      rcases alternativeFault?_eq_some hfound with hmarker | hbar | ⟨-, hempty⟩
      · exact absurd hbracket (not_ofBracket_markerFault? hmarker)
      · exact absurd hbracket (not_ofBracket_barFault? hbar)
      · exact absurd hbracket (not_ofBracket_emptinessFault? hempty)
    · apply tailFault?_of_alternatives hbracket h
      rw [← hstop, joinAtBars, Bracketed.width_append, Bracketed.width]
      omega

theorem tailFault?_of_inner (h : s.inner.fault? = some fault) (hbracket : fault.defect.OfBracket) :
    s.tailFault? (s.start + s.layout.nodes.width) = some fault := by
  unfold Stretch.inner at h
  split at h
  · apply tailFault?_of_alternatives hbracket h
    rw [joinAtBars_splitAtBars]
  · exact tailFault?_of_parts h hbracket rfl

/-- **A bracket without partner is found behind the matched part of a stretch.** -/
theorem tailFault?_of_outline (h : s.outline.fault? = some fault)
    (hbracket : fault.defect.OfBracket) :
    s.tailFault? (s.start + s.layout.nodes.width) = some fault := by
  unfold Stretch.outline at h
  split at h
  · next found hgroup =>
    obtain rfl : found = fault := Option.some.inj h
    obtain ⟨inside, -, ⟨-, h⟩ | ⟨-, h⟩ | ⟨-, -, h⟩⟩ := repeatedGroup?_cases hgroup
    · rw [Except.error.inj h] at hbracket
      exact hbracket.elim
    · rw [Except.error.inj h] at hbracket
      exact hbracket.elim
    · exact absurd h (by simp)
  · exact absurd h (by simp [Outline.fault?])
  · split at h
    · split at h
      · rw [← Option.some.inj h] at hbracket
        exact hbracket.elim
      · next opened hopen =>
        split at h
        · rw [← Option.some.inj h] at hbracket
          exact hbracket.elim
        · -- what the brackets enclose is matched, so nothing is wrong behind it
          have htail := tailFault?_of_inner h hbracket
          rw [tailFault?, (opensTo_of_openBrackets hopen).layout] at htail
          exact absurd htail (by simp)
    · exact tailFault?_of_inner h hbracket

theorem tailFault?_of_isComplete (h : s.layout.isComplete = true) (position : Nat) :
    s.tailFault? position = none := by
  rw [tailFault?, layout_eq_of_isComplete h]

/-- Whatever bracket is reported, it is reported of the whole pattern. -/
theorem tailFault?_of_read {limit budget : Nat} (h : read limit budget s = .error (.structural fault))
    (hbracket : fault.defect.OfBracket) :
    s.tailFault? (s.start + s.layout.nodes.width) = some fault := by
  have hstretches : ∀ t, (t = s ∨ t.layout.isComplete = true) → ∀ inner ∈ t.outline.stretches,
      inner = s ∨ inner.layout.isComplete = true :=
    fun t _ inner hinner => .inr (isComplete_of_mem_stretches hinner)
  rcases fault_of_read hstretches (.inl rfl) h with h | ⟨t, own, ht, hown, h⟩
  · exact absurd h (by simp)
  · obtain rfl : fault = own := Fault.structural.inj h
    have htail := tailFault?_of_outline hown hbracket
    rcases ht with rfl | hcomplete
    · exact htail
    · rw [tailFault?_of_isComplete hcomplete] at htail
      exact absurd htail (by simp)

end Faults

/-! ## Whole patterns -/

/-- A structural fault was found by reading. -/
theorem read_of_parse {limits : Limits} {pattern : String} {fault : StructuralFault}
    (h : parse limits pattern = .error (.structural fault)) :
    read limits.maxDepth limits.maxDepth (.ofText pattern.toList) = .error (.structural fault) := by
  by_cases hlength : limits.maxLength < pattern.length
  · rw [parse_eq_tooLong_iff.mpr ⟨hlength, rfl, rfl⟩] at h
    exact absurd h (by simp)
  by_cases hne : pattern.toList = []
  · rw [parse_of_toList_eq_nil hne] at h
    exact absurd h (by simp)
  rwa [parse_eq_read (Nat.not_lt.mp hlength) hne] at h

/-- A bracket that is reported is the leftmost one without partner, a closing one before an opening
one, and all of the pattern is shown. -/
theorem bracketFault_cases {limits : Limits} {pattern : String} {fault : StructuralFault}
    (h : parse limits pattern = .error (.structural fault)) (hbracket : fault.defect.OfBracket) :
    (∃ i, (Unmatched.ofText (collapse pattern.toList)).closing.head? = some i ∧
      fault = ⟨.unexpectedClose, .single i, String.ofList (collapse pattern.toList)⟩) ∨
    ((Unmatched.ofText (collapse pattern.toList)).closing = [] ∧
      ∃ i, (Unmatched.ofText (collapse pattern.toList)).opening.head? = some i ∧
        fault = ⟨.missingClose, ⟨i, (collapse pattern.toList).length⟩,
          String.ofList (collapse pattern.toList)⟩) := by
  have hspelling := Layout.spelling_ofText (collapse pattern.toList)
  have htail := tailFault?_of_read (read_of_parse h) hbracket
  unfold tailFault? Stretch.fault Stretch.fragment Stretch.stop Stretch.ofText at htail
  simp only [hspelling, Nat.zero_add] at htail
  split at htail
  · next hstrays =>
    rw [← Option.some.inj htail]
    exact .inl ⟨_, Unmatched.closing_of_strays (by rw [hstrays]; simp), rfl⟩
  · next hstrays hunclosed =>
    split at htail
    · rw [← Option.some.inj htail] at hbracket
      exact hbracket.elim
    · obtain ⟨hclosing, hopening⟩ := Unmatched.opening_of_unclosed hstrays hunclosed
      rw [← Option.some.inj htail]
      exact .inr ⟨hclosing, _, hopening, rfl⟩
  · exact absurd htail (by simp)

/-- What is read has no bracket without partner. -/
theorem balanced_of_parse {limits : Limits} {pattern : String} {t : Extent}
    (h : parse limits pattern = .ok t) : Balanced (collapse pattern.toList) := by
  obtain ⟨e, hspelling, -⟩ := expression_of_parse h
  have hcut := e.ofText_spelling
  rw [hspelling] at hcut
  apply Unmatched.balanced_of_complete
  · rw [hcut]
  · rw [hcut]

/-- **Faults name the bracket that is to blame.** A closing bracket is reported only if it is the
leftmost one without partner; an opening one only if every closing one has a partner, and then it is
the leftmost one without, reported up to the end of the text. Either time the fragment is the whole
text. Neither happens where all brackets are matched, and where they are not there is no tree. -/
theorem bracket_faults_name_leftmost (limits : Limits) (pattern : String) :
    let text := collapse pattern.toList
    (∀ span fragment,
      parse limits pattern = .error (.structural ⟨.unexpectedClose, span, fragment⟩) →
        ∃ i, (Unmatched.ofText text).closing.head? = some i ∧ span = .single i ∧
          fragment = String.ofList text) ∧
    (∀ span fragment,
      parse limits pattern = .error (.structural ⟨.missingClose, span, fragment⟩) →
        (Unmatched.ofText text).closing = [] ∧
        ∃ i, (Unmatched.ofText text).opening.head? = some i ∧ span = ⟨i, text.length⟩ ∧
          fragment = String.ofList text) ∧
    (Balanced text → ∀ span fragment,
      parse limits pattern ≠ .error (.structural ⟨.unexpectedClose, span, fragment⟩) ∧
      parse limits pattern ≠ .error (.structural ⟨.missingClose, span, fragment⟩)) ∧
    (¬ Balanced text → ∀ t, parse limits pattern ≠ .ok t) := by
  intro text
  refine ⟨fun span fragment h => ?_, fun span fragment h => ?_, fun hbalanced span fragment => ?_,
    fun hunbalanced t h => hunbalanced (balanced_of_parse h)⟩
  · rcases bracketFault_cases h trivial with ⟨i, hi, hfault⟩ | ⟨-, i, -, hfault⟩
    · obtain ⟨-, hspan, hfragment⟩ := StructuralFault.mk.inj hfault
      exact ⟨i, hi, hspan, hfragment⟩
    · exact absurd (StructuralFault.mk.inj hfault).1 (by simp)
  · rcases bracketFault_cases h trivial with ⟨i, -, hfault⟩ | ⟨hclosing, i, hi, hfault⟩
    · exact absurd (StructuralFault.mk.inj hfault).1 (by simp)
    · obtain ⟨-, hspan, hfragment⟩ := StructuralFault.mk.inj hfault
      exact ⟨hclosing, i, hi, hspan, hfragment⟩
  · have hnone : ∀ fault : StructuralFault, fault.defect.OfBracket →
        parse limits pattern ≠ .error (.structural fault) := by
      intro fault hbracket h
      have hall : Unmatched.ofText (collapse pattern.toList) = ⟨[], []⟩ := hbalanced
      rcases bracketFault_cases h hbracket with ⟨i, hi, -⟩ | ⟨-, i, hi, -⟩
      · rw [hall] at hi
        exact absurd hi (by simp)
      · rw [hall] at hi
        exact absurd hi (by simp)
    exact ⟨hnone _ trivial, hnone _ trivial⟩

/-- Two choices. In `(a))(|b` the count of open brackets goes below zero and comes back to it at the
bar, so the bracket is found behind an alternative that holds it; in `a|(b)((c` two are never
closed. -/
theorem bracket_faults_name_leftmost_in_choices :
    (parse {} "(a))(|b" = .error (.structural ⟨.unexpectedClose, ⟨3, 4⟩, "(a))(|b"⟩) ∧
      ∃ i, (Unmatched.ofText (collapse "(a))(|b".toList)).closing.head? = some i ∧
        (⟨3, 4⟩ : Span) = .single i ∧ "(a))(|b" = String.ofList (collapse "(a))(|b".toList)) ∧
    (parse {} "a|(b)((c" = .error (.structural ⟨.missingClose, ⟨5, 8⟩, "a|(b)((c"⟩) ∧
      (Unmatched.ofText (collapse "a|(b)((c".toList)).closing = [] ∧
      ∃ i, (Unmatched.ofText (collapse "a|(b)((c".toList)).opening.head? = some i ∧
        (⟨5, 8⟩ : Span) = ⟨i, (collapse "a|(b)((c".toList).length⟩ ∧
        "a|(b)((c" = String.ofList (collapse "a|(b)((c".toList)) ∧
    (¬ Balanced (collapse "a|(b)((c".toList) ∧ ∀ t, parse {} "a|(b)((c" ≠ .ok t) ∧
    (Balanced (collapse "((a)|b)".toList) ∧
      ∀ span fragment, parse {} "((a)|b)" ≠ .error (.structural ⟨.missingClose, span, fragment⟩)) := by
  have hclose : parse {} "(a))(|b" =
      .error (.structural ⟨.unexpectedClose, ⟨3, 4⟩, "(a))(|b"⟩) := rfl
  have hopen : parse {} "a|(b)((c" =
      .error (.structural ⟨.missingClose, ⟨5, 8⟩, "a|(b)((c"⟩) := rfl
  have hunbalanced : ¬ Balanced (collapse "a|(b)((c".toList) := by decide
  have hbalanced : Balanced (collapse "((a)|b)".toList) := by decide
  obtain ⟨-, hmissing, -, hrefused⟩ := bracket_faults_name_leftmost {} "a|(b)((c"
  have hnone := (bracket_faults_name_leftmost {} "((a)|b)").2.2.1 hbalanced
  exact ⟨⟨hclose, (bracket_faults_name_leftmost {} "(a))(|b").1 _ _ hclose⟩,
    ⟨hopen, hmissing _ _ hopen⟩, ⟨hunbalanced, hrefused hunbalanced⟩,
    hbalanced, fun span fragment => (hnone span fragment).2⟩

end CaretAutomata.Pattern

import CaretAutomata.Proofs.Pattern.Parsing

/-!
# Where a refusal comes from

A reading that fails has come to a stretch where it could not go on: one that is too deep, or one
whose own outline holds a fault (`fault_of_read`). Everything between that stretch and the whole
pattern only passes the fault on. So what is to be said of all faults is said of outlines, and of
the stretches that an outline names; no other proof goes down the levels of a reading for it.
-/

namespace CaretAutomata.Pattern

/-- What is wrong with a stretch, apart from the stretches in it. -/
def Outline.fault? : Outline → Option StructuralFault
  | .faulty fault => some fault
  | .repetition _ => none
  | .sequence _ fault => fault
  | .choice _ fault => fault

section Outlines

variable {rd : Stretch → Except Fault Extent} {fault : Fault}

theorem exists_of_mapM_eq_error {α : Type} {f : α → Except Fault Extent} {xs : List α}
    (h : xs.mapM f = .error fault) : ∃ x ∈ xs, f x = .error fault := by
  induction xs with
  | nil => exact absurd h (by simp [pure, Except.pure])
  | cons x xs ih =>
    rw [List.mapM_cons] at h
    cases hx : f x with
    | error found =>
      rw [hx] at h
      obtain rfl : found = fault := Except.error.inj h
      exact ⟨x, .head _, hx⟩
    | ok t =>
      rw [hx] at h
      cases hxs : xs.mapM f with
      | error found =>
        rw [hxs] at h
        obtain rfl : found = fault := Except.error.inj h
        obtain ⟨y, hy, hfault⟩ := ih hxs
        exact ⟨y, .tail _ hy, hfault⟩
      | ok ts =>
        rw [hxs] at h
        exact absurd h (by simp [bind, Except.bind, pure, Except.pure])

/-- A list of readings fails with one of them, or with the fault that stands behind them. -/
theorem mapM_raise_eq_error {m : Except Fault (List Extent)} {own : Option StructuralFault}
    {node : List Extent → Extent}
    (h : (do let ts ← m; raise own; return node ts) = Except.error fault) :
    m = .error fault ∨ ∃ found, own = some found ∧ fault = .structural found := by
  cases m with
  | error found => exact .inl (congrArg Except.error (Except.error.inj h))
  | ok ts =>
    cases own with
    | none => exact absurd h (by simp [raise, bind, Except.bind, pure, Except.pure])
    | some found => exact .inr ⟨found, rfl, (Except.error.inj h).symm⟩

/-- Signs are read without a fault. -/
theorem Part.readWith_eq_error {part : Part} (h : part.readWith rd = .error fault) :
    ∃ s, part = .nested s ∧ rd s = .error fault := by
  cases part with
  | sign c => exact absurd h (by simp [Part.readWith])
  | repeatedSign c => exact absurd h (by simp [Part.readWith])
  | nested s => exact ⟨s, rfl, h⟩

theorem Outline.readWith_eq_error {outline : Outline} (h : outline.readWith rd = .error fault) :
    (∃ own, outline.fault? = some own ∧ fault = .structural own) ∨
      ∃ s ∈ outline.stretches, rd s = .error fault := by
  cases outline with
  | faulty own => exact .inl ⟨own, rfl, (Except.error.inj h).symm⟩
  | repetition body =>
    cases hbody : rd body with
    | error found =>
      rw [Outline.readWith, hbody] at h
      obtain rfl : found = fault := Except.error.inj h
      exact .inr ⟨body, .head _, hbody⟩
    | ok t =>
      rw [Outline.readWith, hbody] at h
      exact absurd h (by simp [bind, Except.bind, pure, Except.pure])
  | sequence parts own =>
    rcases mapM_raise_eq_error h with h | h
    · obtain ⟨part, hpart, h⟩ := exists_of_mapM_eq_error h
      obtain ⟨s, rfl, hs⟩ := Part.readWith_eq_error h
      exact .inr ⟨s, List.mem_filterMap.mpr ⟨_, hpart, rfl⟩, hs⟩
    · exact .inl h
  | choice alternatives own =>
    rcases mapM_raise_eq_error h with h | h
    · exact .inr (exists_of_mapM_eq_error h)
    · exact .inl h

end Outlines

/-- **A reading fails for the depth, or for what is wrong with some stretch itself.** Of this
stretch everything is known that the outlines on the way down to it hand on. -/
theorem fault_of_read {limit : Nat} {P : Stretch → Prop}
    (hP : ∀ s, P s → ∀ inner ∈ s.outline.stretches, P inner) : ∀ {budget : Nat} {s : Stretch}
    {fault : Fault}, P s → read limit budget s = .error fault →
    fault = .tooDeep limit ∨
      ∃ s' own, P s' ∧ s'.outline.fault? = some own ∧ fault = .structural own := by
  intro budget
  induction budget with
  | zero =>
    intro s fault _ h
    exact .inl (Except.error.inj h).symm
  | succ budget ih =>
    intro s fault hs h
    rw [read_succ] at h
    rcases Outline.readWith_eq_error h with ⟨own, hown, hfault⟩ | ⟨inner, hinner, h⟩
    · exact .inr ⟨s, own, hs, hown, hfault⟩
    · exact ih (hP s hs inner hinner) h

/-- The levels of a reading fail for nothing but the structure and the depth. -/
theorem read_eq_error {limit budget : Nat} {s : Stretch} {fault : Fault}
    (h : read limit budget s = .error fault) :
    fault = .tooDeep limit ∨ ∃ own, fault = .structural own := by
  rcases fault_of_read (P := fun _ => True) (fun _ _ _ _ => trivial) trivial h with
    h | ⟨_, own, -, -, h⟩
  · exact .inl h
  · exact .inr ⟨own, h⟩

/-! ## Whole patterns -/

/-- Behind the checks of the length and of the empty pattern, a pattern is read. -/
theorem parse_eq_read {limits : Limits} {pattern : String}
    (hlength : pattern.length ≤ limits.maxLength) (hne : pattern.toList ≠ []) :
    parse limits pattern = read limits.maxDepth limits.maxDepth (.ofText pattern.toList) := by
  rw [parse, parseText, String.length_toList, if_neg (Nat.not_lt.mpr hlength), if_neg]
  rwa [List.isEmpty_iff]

theorem parse_of_toList_eq_nil {limits : Limits} {pattern : String} (h : pattern.toList = []) :
    parse limits pattern = .error .emptyPattern := by
  rw [parse, parseText, h]
  exact if_neg (Nat.not_lt_zero _)

/-- Only the empty pattern is refused for being empty. -/
theorem eq_empty_of_parse {limits : Limits} {pattern : String}
    (h : parse limits pattern = .error .emptyPattern) : pattern = "" := by
  by_cases hlength : limits.maxLength < pattern.length
  · rw [parse, parseText, String.length_toList, if_pos hlength] at h
    exact absurd h (by simp)
  · by_cases hne : pattern.toList = []
    · exact String.toList_eq_nil_iff.mp hne
    · rw [parse_eq_read (Nat.not_lt.mp hlength) hne] at h
      rcases read_eq_error h with h | ⟨own, h⟩ <;> exact absurd h (by simp)

/-- A pattern that is not too long is read as its collapsed text is. -/
theorem parse_collapsed {limits : Limits} {pattern : String}
    (hlength : pattern.length ≤ limits.maxLength) :
    parse limits (String.ofList (collapse pattern.toList)) = parse limits pattern := by
  by_cases hne : pattern.toList = []
  · rw [parse_of_toList_eq_nil hne, parse_of_toList_eq_nil (by simp [hne])]
  · have hcollapsed : (String.ofList (collapse pattern.toList)).length ≤ limits.maxLength := by
      rw [String.length_ofList]
      exact Nat.le_trans (length_collapse_le _) (String.length_toList ▸ hlength)
    have hne' : (String.ofList (collapse pattern.toList)).toList ≠ [] := by
      rwa [String.toList_ofList, ne_eq, collapse_eq_nil_iff]
    rw [parse_eq_read hlength hne, parse_eq_read hcollapsed hne', String.toList_ofList,
      Stretch.ofText, Stretch.ofText, collapse_collapse]

/-- **A pattern is too long exactly if it has more characters than allowed**, whatever else is wrong
with it. -/
theorem parse_eq_tooLong_iff {limits : Limits} {pattern : String} {length limit : Nat} :
    parse limits pattern = .error (.tooLong length limit) ↔
      limits.maxLength < pattern.length ∧ length = pattern.length ∧ limit = limits.maxLength := by
  by_cases hlength : limits.maxLength < pattern.length
  · rw [parse, parseText, String.length_toList, if_pos hlength]
    simp [hlength, eq_comm]
  · refine iff_of_false (fun h => ?_) fun h => hlength h.1
    by_cases hne : pattern.toList = []
    · rw [parse_of_toList_eq_nil hne] at h
      exact absurd h (by simp)
    · rw [parse_eq_read (Nat.not_lt.mp hlength) hne] at h
      rcases read_eq_error h with h | ⟨own, h⟩ <;> exact absurd h (by simp)

end CaretAutomata.Pattern

/-! # Runs of markers

`^` repeats what stands before it. A run of several says no more than one, so a pattern is read
with every run collapsed: positions in messages count characters of the collapsed text. -/

namespace CaretAutomata.Pattern

/-- Keeps one marker of every run. -/
def collapse : List Char → List Char
  | [] => []
  | c :: rest =>
    if c = '^' ∧ rest.head? = some '^' then collapse rest else c :: collapse rest

@[simp]
theorem collapse_nil : collapse [] = [] := rfl

@[simp]
theorem collapse_marker_marker (rest : List Char) :
    collapse ('^' :: '^' :: rest) = collapse ('^' :: rest) := by
  simp [collapse]

theorem collapse_cons_of_ne {c : Char} (h : c ≠ '^') (rest : List Char) :
    collapse (c :: rest) = c :: collapse rest := by
  simp [collapse, h]

/-- Without markers there is nothing to collapse. -/
theorem collapse_of_not_mem {text : List Char} (h : '^' ∉ text) : collapse text = text := by
  induction text with
  | nil => rfl
  | cons c rest ih =>
    have hc : c ≠ '^' := fun heq => h (heq ▸ .head rest)
    rw [collapse_cons_of_ne hc, ih fun hmem => h (.tail c hmem)]

@[simp]
theorem head?_collapse (text : List Char) : (collapse text).head? = text.head? := by
  induction text with
  | nil => rfl
  | cons c rest ih =>
    simp only [collapse]
    split
    · next h => rw [ih, h.2, h.1]; rfl
    · rfl

theorem collapse_eq_nil_iff {text : List Char} : collapse text = [] ↔ text = [] := by
  rw [← List.head?_eq_none_iff, head?_collapse, List.head?_eq_none_iff]

/-- A run of markers loses none but the markers in front of its last one. -/
@[simp]
theorem mem_collapse {c : Char} {text : List Char} : c ∈ collapse text ↔ c ∈ text := by
  induction text with
  | nil => rfl
  | cons d rest ih =>
    rw [collapse]
    split
    · next h =>
      rw [ih, List.mem_cons, iff_or_self]
      rintro rfl
      exact h.1 ▸ List.mem_of_head? h.2
    · rw [List.mem_cons, List.mem_cons, ih]

theorem length_collapse_le (text : List Char) : (collapse text).length ≤ text.length := by
  induction text with
  | nil => exact Nat.le_refl 0
  | cons c rest ih =>
    rw [collapse]
    split
    · exact Nat.le_succ_of_le ih
    · exact Nat.succ_le_succ ih

/-- Texts are collapsed apart, unless a run goes on from one to the other. -/
theorem collapse_append (first : List Char) {second : List Char} (h : second.head? ≠ some '^') :
    collapse (first ++ second) = collapse first ++ collapse second := by
  induction first with
  | nil => rfl
  | cons c rest ih =>
    have hhead : (rest ++ second).head? = some '^' ↔ rest.head? = some '^' := by
      cases rest with
      | nil => simpa using h
      | cons d others => rfl
    simp only [List.cons_append, collapse, hhead, ih]
    split
    · rfl
    · rfl

/-- No marker stands directly behind another one in a collapsed text. -/
theorem not_infix_collapse (text : List Char) : ¬ ['^', '^'] <:+: collapse text := by
  induction text with
  | nil => simp
  | cons c rest ih =>
    rw [collapse]
    split
    · exact ih
    · next hkept =>
      intro h
      rcases List.infix_cons_iff.mp h with h | h
      · obtain ⟨behind, h⟩ := h
        obtain ⟨rfl, hrest⟩ := List.cons.inj h
        have hhead := head?_collapse rest
        rw [← hrest] at hhead
        exact hkept ⟨rfl, hhead.symm⟩
      · exact ih h

/-- A collapsed text has nothing left to collapse. -/
@[simp]
theorem collapse_collapse (text : List Char) : collapse (collapse text) = collapse text := by
  induction text with
  | nil => rfl
  | cons c rest ih =>
    by_cases h : c = '^' ∧ rest.head? = some '^'
    · simp [collapse, h, ih]
    · simp [collapse, h, ih]

end CaretAutomata.Pattern

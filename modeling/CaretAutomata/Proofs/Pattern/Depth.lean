import CaretAutomata.Extent.Spelling
import CaretAutomata.Proofs.Pattern.Derivation

/-!
# How deep a pattern may be

The budget of `read` counts stretches, and a tree does not show its stretches one to one: a
repeated character is read where it stands, at no cost, and brackets around everything are gone.
What a tree does show is `Extent.nesting`, the depth of the tree with repeated characters counted as
characters, and that is what reading it costs. A tree that was read has a nesting within the budget
(`nesting_of_read`), and a text that is read with some budget is read to the same tree with every
budget that covers the nesting of this tree (`read_of_nesting_le`). So the limit on the depth refuses
no text for anything but its tree, however the text was bracketed.
-/

namespace CaretAutomata

namespace Extent

mutual

/-- The number of operations on the longest way from the root down to a leaf, where the repetition
of a single character counts as none. -/
def nesting : Extent → Nat
  | leaf _ => 0
  | concatenation parts => nestingAll parts + 1
  | union alternatives => nestingAll alternatives + 1
  | repetition (leaf _) => 0
  | repetition body => body.nesting + 1

def nestingAll : List Extent → Nat
  | [] => 0
  | e :: others => max e.nesting (nestingAll others)

end

theorem nesting_repetition (body : Extent) :
    (repetition body).nesting = if body.isLeaf then 0 else body.nesting + 1 := by
  cases body <;> rfl

/-- A repetition counts, unless what it repeats counts for nothing. -/
theorem nesting_repetition_of_pos {body : Extent} (h : 0 < body.nesting) :
    (repetition body).nesting = body.nesting + 1 := by
  rw [nesting_repetition, if_neg]
  cases body with
  | leaf c => exact absurd h (Nat.lt_irrefl 0)
  | concatenation parts => exact Bool.false_ne_true
  | union alternatives => exact Bool.false_ne_true
  | repetition body => exact Bool.false_ne_true

end Extent

namespace Pattern

open Extent

section Outlines

variable {α : Type} {rd rd' : Stretch → Except Fault Extent} {k : Nat}

theorem map_repetition_eq_ok {m : Except Fault Extent} {t : Extent} :
    (do return repetition (← m)) = Except.ok t ↔ ∃ body, m = .ok body ∧ repetition body = t := by
  cases m <;> simp [bind, Except.bind, pure, Except.pure]

theorem nestingAll_le_of_mapM {f : α → Except Fault Extent}
    (hf : ∀ x t, f x = .ok t → t.nesting ≤ k) : ∀ {xs : List α} {ts : List Extent},
    xs.mapM f = .ok ts → nestingAll ts ≤ k
  | [], ts, h => by
    rw [← Except.ok.inj h]
    exact Nat.zero_le k
  | x :: xs, ts, h => by
    obtain ⟨t, us, ht, hus, rfl⟩ := mapM_cons_eq_ok.mp h
    exact Nat.max_le.mpr ⟨hf x t ht, nestingAll_le_of_mapM hf hus⟩

theorem mapM_of_nestingAll_le {f g : α → Except Fault Extent}
    (hfg : ∀ x t, f x = .ok t → t.nesting ≤ k → g x = .ok t) : ∀ {xs : List α} {ts : List Extent},
    xs.mapM f = .ok ts → nestingAll ts ≤ k → xs.mapM g = .ok ts
  | [], ts, h, _ => h
  | x :: xs, ts, h, hle => by
    obtain ⟨t, us, ht, hus, rfl⟩ := mapM_cons_eq_ok.mp h
    obtain ⟨htle, husle⟩ := Nat.max_le.mp hle
    exact mapM_cons_eq_ok.mpr ⟨t, us, hfg x t ht htle, mapM_of_nestingAll_le hfg hus husle, rfl⟩

/-- Signs cost nothing; a nested stretch costs what it costs. -/
theorem Part.nesting_le_of_readWith (hrd : ∀ s t, rd s = .ok t → t.nesting ≤ k) (part : Part)
    (t : Extent) (h : part.readWith rd = .ok t) : t.nesting ≤ k := by
  cases part with
  | sign c =>
    rw [← Except.ok.inj h]
    exact Nat.zero_le k
  | repeatedSign c =>
    rw [← Except.ok.inj h]
    exact Nat.zero_le k
  | nested stretch => exact hrd stretch t h

theorem Part.readWith_of_nesting_le (hrd : ∀ s t, rd s = .ok t → t.nesting ≤ k → rd' s = .ok t)
    (part : Part) (t : Extent) (h : part.readWith rd = .ok t) (hle : t.nesting ≤ k) :
    part.readWith rd' = .ok t := by
  cases part with
  | sign c => exact h
  | repeatedSign c => exact h
  | nested stretch => exact hrd stretch t h hle

theorem Outline.nesting_of_readWith (hrd : ∀ s t, rd s = .ok t → 0 < t.nesting ∧ t.nesting ≤ k)
    {outline : Outline} {t : Extent} (h : outline.readWith rd = .ok t) :
    0 < t.nesting ∧ t.nesting ≤ k + 1 := by
  have hle : ∀ s t, rd s = .ok t → t.nesting ≤ k := fun s t hs => (hrd s t hs).2
  cases outline with
  | faulty fault => exact absurd h (by simp [Outline.readWith])
  | repetition stretch =>
    obtain ⟨body, hbody, rfl⟩ := map_repetition_eq_ok.mp h
    obtain ⟨hpos, hle⟩ := hrd stretch body hbody
    rw [nesting_repetition_of_pos hpos]
    exact ⟨Nat.succ_pos _, Nat.succ_le_succ hle⟩
  | sequence parts fault =>
    obtain ⟨ts, hts, -, rfl⟩ := mapM_raise_eq_ok.mp h
    have := nestingAll_le_of_mapM (Part.nesting_le_of_readWith hle) hts
    exact ⟨Nat.succ_pos _, Nat.succ_le_succ this⟩
  | choice alternatives fault =>
    obtain ⟨ts, hts, -, rfl⟩ := mapM_raise_eq_ok.mp h
    exact ⟨Nat.succ_pos _, Nat.succ_le_succ (nestingAll_le_of_mapM hle hts)⟩

theorem Outline.readWith_of_nesting_le (hpos : ∀ s t, rd s = .ok t → 0 < t.nesting)
    (hrd : ∀ s t, rd s = .ok t → t.nesting ≤ k → rd' s = .ok t)
    {outline : Outline} {t : Extent} (h : outline.readWith rd = .ok t) (hle : t.nesting ≤ k + 1) :
    outline.readWith rd' = .ok t := by
  cases outline with
  | faulty fault => exact h
  | repetition stretch =>
    obtain ⟨body, hbody, rfl⟩ := map_repetition_eq_ok.mp h
    rw [nesting_repetition_of_pos (hpos stretch body hbody)] at hle
    exact map_repetition_eq_ok.mpr ⟨body, hrd stretch body hbody (Nat.le_of_succ_le_succ hle), rfl⟩
  | sequence parts fault =>
    obtain ⟨ts, hts, hfault, rfl⟩ := mapM_raise_eq_ok.mp h
    have hparts := mapM_of_nestingAll_le (Part.readWith_of_nesting_le hrd) hts
      (Nat.le_of_succ_le_succ hle)
    exact mapM_raise_eq_ok.mpr ⟨ts, hparts, hfault, rfl⟩
  | choice alternatives fault =>
    obtain ⟨ts, hts, hfault, rfl⟩ := mapM_raise_eq_ok.mp h
    have halternatives := mapM_of_nestingAll_le hrd hts (Nat.le_of_succ_le_succ hle)
    exact mapM_raise_eq_ok.mpr ⟨ts, halternatives, hfault, rfl⟩

end Outlines

/-- **A tree that was read is as deep as the budget allows, and never a mere character.** -/
theorem nesting_of_read {limit : Nat} : ∀ {budget : Nat} {s : Stretch} {t : Extent},
    read limit budget s = .ok t → 0 < t.nesting ∧ t.nesting ≤ budget := by
  intro budget
  induction budget with
  | zero =>
    intro s t h
    exact absurd h (by simp [read])
  | succ budget ih =>
    intro s t h
    rw [read_succ] at h
    exact Outline.nesting_of_readWith (fun _ _ => ih) h

/-- **What is read with one budget is read with any other that covers the tree.** -/
theorem read_of_nesting_le {limit limit' : Nat} : ∀ {budget budget' : Nat} {s : Stretch}
    {t : Extent}, read limit budget s = .ok t → t.nesting ≤ budget' →
    read limit' budget' s = .ok t := by
  intro budget
  induction budget with
  | zero =>
    intro budget' s t h
    exact absurd h (by simp [read])
  | succ budget ih =>
    intro budget' s t h hle
    cases budget' with
    | zero => exact absurd (nesting_of_read h).1 (Nat.not_lt.mpr hle)
    | succ budget' =>
      rw [read_succ] at h ⊢
      exact Outline.readWith_of_nesting_le (fun _ _ hs => (nesting_of_read hs).1)
        (fun _ _ hs => ih hs) h hle

/-! ## Whole patterns -/

/-- A pattern that is read keeps both limits. -/
theorem within_of_parse {limits : Limits} {pattern : String} {t : Extent}
    (h : parse limits pattern = .ok t) :
    pattern.length ≤ limits.maxLength ∧ t.nesting ≤ limits.maxDepth := by
  rw [parse, parseText, String.length_toList] at h
  split at h
  · exact absurd h (by simp)
  · next hlength =>
    split at h
    · exact absurd h (by simp)
    · exact ⟨Nat.not_lt.mp hlength, (nesting_of_read h).2⟩

/-- The spelling of an expression is a pattern, and the limits apply to nothing but its length and
its tree. -/
theorem parse_spelling {limits : Limits} {pattern : String} {e : Expression}
    (hspelling : e.spelling = collapse pattern.toList)
    (hlength : pattern.length ≤ limits.maxLength) (hnesting : e.tree.nesting ≤ limits.maxDepth) :
    parse limits pattern = .ok e.tree := by
  -- read with a level for each character first, whatever the limit
  have hfree : parse { limits with maxDepth := (collapse pattern.toList).length } pattern =
      .ok e.tree := parse_of_spelling hlength (Nat.le_refl _) hspelling
  rw [parse, parseText] at hfree ⊢
  split at hfree
  · exact absurd hfree (by simp)
  · next hshort =>
    rw [if_neg hshort]
    split at hfree
    · exact absurd hfree (by simp)
    · next hne =>
      rw [if_neg hne]
      exact read_of_nesting_le hfree hnesting

end Pattern

end CaretAutomata

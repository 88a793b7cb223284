import CaretAutomata.Proofs.Pattern.Depth
import CaretAutomata.Proofs.Pattern.Refusals

/-!
# What limits do

A limit cuts a reading off and does nothing else. The length is looked at before anything is read.
The depth is looked at level by level, in between the faults that the levels have themselves, so
which of the two is found first depends on the pattern; but a reading that was not cut off comes to
the same end with more levels (`read_kept`). A pattern that can be read at all therefore has a
threshold, and since the tree that is read does not depend on the limit the threshold is a number of
the tree: `Extent.nesting` (`read_eq_tooDeep`).
-/

namespace CaretAutomata

namespace Extent

mutual

/-- Beside the repetition of a character at its end, every operation on the way down counts. -/
theorem depth_le_nesting : ∀ e : Extent, e.depth ≤ e.nesting + 1
  | leaf _ => Nat.zero_le _
  | concatenation parts => Nat.succ_le_succ (depthAll_le_nestingAll parts)
  | union alternatives => Nat.succ_le_succ (depthAll_le_nestingAll alternatives)
  | repetition (leaf _) => Nat.le_refl _
  | repetition (concatenation parts) => Nat.succ_le_succ (depth_le_nesting (concatenation parts))
  | repetition (union alternatives) => Nat.succ_le_succ (depth_le_nesting (union alternatives))
  | repetition (repetition body) => Nat.succ_le_succ (depth_le_nesting (repetition body))

theorem depthAll_le_nestingAll : ∀ es : List Extent, depthAll es ≤ nestingAll es + 1
  | [] => Nat.zero_le _
  | e :: others => by
    have he := depth_le_nesting e
    have hothers := depthAll_le_nestingAll others
    rw [depthAll, nestingAll]
    omega

end

end Extent

namespace Pattern

open Extent

section Outlines

variable {rd rd' : Stretch → Except Fault Extent} {deep : Fault}

/-- What goes on from a reading that was kept is kept. -/
theorem bind_kept {α β : Type} {m m' : Except Fault α} (k : α → Except Fault β)
    (h : m = .error deep ∨ m' = m) : (m >>= k) = .error deep ∨ (m' >>= k) = (m >>= k) := by
  rcases h with rfl | rfl
  · exact .inl rfl
  · exact .inr rfl

theorem mapM_kept {α : Type} {f g : α → Except Fault Extent}
    (hfg : ∀ x, f x = .error deep ∨ g x = f x) (xs : List α) :
    xs.mapM f = .error deep ∨ xs.mapM g = xs.mapM f := by
  induction xs with
  | nil => exact .inr rfl
  | cons x xs ih =>
    rw [List.mapM_cons, List.mapM_cons]
    rcases hfg x with hx | hx
    · rw [hx]
      exact .inl rfl
    · rw [hx]
      cases f x with
      | error fault => exact .inr rfl
      | ok t => exact bind_kept (fun ts => pure (t :: ts)) ih

theorem Part.readWith_kept (hrd : ∀ s, rd s = .error deep ∨ rd' s = rd s) (part : Part) :
    part.readWith rd = .error deep ∨ part.readWith rd' = part.readWith rd := by
  cases part with
  | sign c => exact .inr rfl
  | repeatedSign c => exact .inr rfl
  | nested s => exact hrd s

theorem Outline.readWith_kept (hrd : ∀ s, rd s = .error deep ∨ rd' s = rd s) (outline : Outline) :
    outline.readWith rd = .error deep ∨ outline.readWith rd' = outline.readWith rd := by
  cases outline with
  | faulty own => exact .inr rfl
  | repetition body => exact bind_kept _ (hrd body)
  | sequence parts own => exact bind_kept _ (mapM_kept (Part.readWith_kept hrd) parts)
  | choice alternatives own => exact bind_kept _ (mapM_kept hrd alternatives)

end Outlines

/-- **A reading that is not cut off ends the same way with more levels**, with a tree or with a
fault. -/
theorem read_kept {limit limit' : Nat} : ∀ {budget budget' : Nat} (s : Stretch), budget ≤ budget' →
    read limit budget s = .error (.tooDeep limit) ∨
      read limit' budget' s = read limit budget s := by
  intro budget
  induction budget with
  | zero => exact fun _ _ => .inl rfl
  | succ budget ih =>
    intro budget' s hle
    cases budget' with
    | zero => exact absurd hle (Nat.not_succ_le_zero _)
    | succ budget' =>
      rw [read_succ, read_succ]
      exact Outline.readWith_kept (fun inner => ih inner (Nat.le_of_succ_le_succ hle)) s.outline

/-- **With fewer levels than its tree is nested, a reading is cut off**, and finds no other fault
before. -/
theorem read_eq_tooDeep {limit limit' budget budget' : Nat} {s : Stretch} {t : Extent}
    (h : read limit budget s = .ok t) (hlt : budget' < t.nesting) :
    read limit' budget' s = .error (.tooDeep limit') := by
  have hnesting := (nesting_of_read h).2
  have hle : budget' ≤ budget := Nat.le_trans (Nat.le_of_lt hlt) hnesting
  rcases read_kept s hle with hdeep | hkept
  · exact hdeep
  · -- otherwise it would end with the tree, for which there are too few levels
    have hread : read limit' budget' s = .ok t := hkept.symm.trans h
    exact absurd hlt (Nat.not_lt.mpr (nesting_of_read hread).2)

/-! ## Whole patterns -/

/-- A pattern that is read is not empty. -/
theorem toList_ne_nil_of_parse {limits : Limits} {pattern : String} {t : Extent}
    (h : parse limits pattern = .ok t) : pattern.toList ≠ [] := by
  intro hnil
  rw [parse_of_toList_eq_nil hnil] at h
  exact absurd h (by simp)

theorem parse_kept {limits limits' : Limits} {pattern : String}
    (hlength : limits.maxLength ≤ limits'.maxLength) (hdepth : limits.maxDepth ≤ limits'.maxDepth)
    (hlong : ∀ length limit, parse limits pattern ≠ .error (.tooLong length limit))
    (hdeep : ∀ limit, parse limits pattern ≠ .error (.tooDeep limit)) :
    parse limits' pattern = parse limits pattern := by
  have hshort : pattern.length ≤ limits.maxLength :=
    Nat.not_lt.mp fun h => hlong _ _ (parse_eq_tooLong_iff.mpr ⟨h, rfl, rfl⟩)
  by_cases hne : pattern.toList = []
  · rw [parse_of_toList_eq_nil hne, parse_of_toList_eq_nil hne]
  · have hread := parse_eq_read hshort hne
    have hread' := parse_eq_read (Nat.le_trans hshort hlength) hne
    rcases read_kept (Stretch.ofText pattern.toList) hdepth with h | h
    · exact absurd (hread.trans h) (hdeep _)
    · rw [hread, hread', h]

theorem parse_threshold {limits generous : Limits} {pattern : String} {t : Extent}
    (h : parse generous pattern = .ok t) (hlength : pattern.length ≤ limits.maxLength) :
    parse limits pattern =
      if t.nesting ≤ limits.maxDepth then .ok t else .error (.tooDeep limits.maxDepth) := by
  have hne := toList_ne_nil_of_parse h
  rw [parse_eq_read (within_of_parse h).1 hne] at h
  rw [parse_eq_read hlength hne]
  split
  · next hle => exact read_of_nesting_le h hle
  · next hlt => exact read_eq_tooDeep h (Nat.not_le.mp hlt)

/-- **Limits cut off, at an exact threshold, and do nothing else.** Too long is what has too many
characters, counted before runs of markers are collapsed, and no other fault comes first. What is
not cut off stays as it is under larger limits. A pattern that can be read at all is read exactly if
the depth allows for the nesting of its tree, so a tree that was read is deeper by one at most. -/
theorem limits_cut_off (limits : Limits) (pattern : String) :
    (∀ length limit, parse limits pattern = .error (.tooLong length limit) ↔
      limits.maxLength < pattern.length ∧ length = pattern.length ∧ limit = limits.maxLength) ∧
    ((∀ length limit, parse limits pattern ≠ .error (.tooLong length limit)) →
      (∀ limit, parse limits pattern ≠ .error (.tooDeep limit)) →
      ∀ limits' : Limits, limits.maxLength ≤ limits'.maxLength →
        limits.maxDepth ≤ limits'.maxDepth → parse limits' pattern = parse limits pattern) ∧
    (∀ t, (∃ generous, parse generous pattern = .ok t) → pattern.length ≤ limits.maxLength →
      parse limits pattern =
        if t.nesting ≤ limits.maxDepth then .ok t else .error (.tooDeep limits.maxDepth)) ∧
    ∀ t, parse limits pattern = .ok t → t.depth ≤ limits.maxDepth + 1 := by
  refine ⟨fun _ _ => parse_eq_tooLong_iff, fun hlong hdeep limits' hlength hdepth => ?_,
    fun t h hlength => ?_, fun t h => ?_⟩
  · exact parse_kept hlength hdepth hlong hdeep
  · obtain ⟨generous, h⟩ := h
    exact parse_threshold h hlength
  · exact Nat.le_trans t.depth_le_nesting (Nat.succ_le_succ (within_of_parse h).2)

/-- The tree of `(a|(b^c)^)^`: five operations deep, one of which repeats a character. -/
def loopInLoop : Extent :=
  .repetition (.union [.literal ['a'],
    .repetition (.concatenation [.repetition (.leaf 'b'), .leaf 'c'])])

theorem parse_loopInLoop : parse {} "(a|(b^c)^)^" = .ok loopInLoop :=
  parse_of_spelling (e := .one (.one (.group (.more (.one (.sign ⟨'a', by decide⟩ false))
    (.one (.one (.group (.one (.more (.sign ⟨'b', by decide⟩ true)
      (.one (.sign ⟨'c', by decide⟩ false)))) true)))) true)))
    (by decide) (by decide) (by decide)

/-- Four levels are enough for it, three are not. -/
theorem limits_cut_off_loopInLoop : (∃ generous, parse generous "(a|(b^c)^)^" = .ok loopInLoop) ∧
    parse ⟨11, 3⟩ "(a|(b^c)^)^" = .error (.tooDeep 3) ∧
    parse ⟨11, 4⟩ "(a|(b^c)^)^" = .ok loopInLoop ∧ loopInLoop.depth ≤ 4 + 1 ∧
    parse ⟨4096, 4⟩ "(a|(b^c)^)^" = parse ⟨11, 4⟩ "(a|(b^c)^)^" := by
  have hread : ∃ generous, parse generous "(a|(b^c)^)^" = .ok loopInLoop := ⟨{}, parse_loopInLoop⟩
  have hcut := (limits_cut_off ⟨11, 3⟩ "(a|(b^c)^)^").2.2.1 loopInLoop hread (by decide)
  obtain ⟨-, hkept, hthreshold, hdepth⟩ := limits_cut_off ⟨11, 4⟩ "(a|(b^c)^)^"
  have hok := hthreshold loopInLoop hread (by decide)
  rw [if_neg (by decide)] at hcut
  rw [if_pos (by decide)] at hok
  refine ⟨hread, hcut, hok, hdepth loopInLoop hok, hkept ?_ ?_ ⟨4096, 4⟩ (by decide) (by decide)⟩
  · simp [hok]
  · simp [hok]

end Pattern

end CaretAutomata

import Mathlib.Logic.Relation
import CaretAutomata.Proofs.Pattern.Refusals
import CaretAutomata.Rendering

/-!
# How long a run of markers is

`collapse` keeps one marker of every run, so it cannot tell runs of different lengths apart. This
file says that it forgets nothing else: two texts have the same collapsed text exactly if one turns
into the other by giving runs of markers other lengths (`collapse_eq_iff`).

A run is changed as a whole, so `RunResized` asks for a maximal one, with no marker on either side.
What it leads to is an equivalence with the collapsed texts as normal forms: every text leads to its
own (`leads_to_collapse`), and every step can be taken back.

Everything behind the check of the length sees the collapsed text only. Two such texts, neither of
them too long, have the same tree or the same fault, and the same automaton.
-/

namespace CaretAutomata

namespace Pattern

open Relation (ReflTransGen)

/-- One maximal run of markers gets another length. No run becomes empty. -/
inductive RunResized : List Char → List Char → Prop where
  | resize (front behind : List Char) (m n : Nat) (hfront : front.getLast? ≠ some '^')
      (hbehind : behind.head? ≠ some '^') :
      RunResized (front ++ (List.replicate (m + 1) '^' ++ behind))
        (front ++ (List.replicate (n + 1) '^' ++ behind))

section Runs

variable {s t front behind : List Char}

/-! ## A run is collapsed to one marker, whatever its length -/

theorem collapse_run (h : behind.head? ≠ some '^') (n : Nat) :
    collapse (List.replicate (n + 1) '^' ++ behind) = '^' :: collapse behind := by
  induction n with
  | zero =>
    show collapse ('^' :: behind) = '^' :: collapse behind
    rw [collapse, if_neg fun hrun => h hrun.2]
  | succ n ih =>
    rw [List.replicate_succ, List.replicate_succ, List.cons_append, List.cons_append,
      collapse_marker_marker]
    exact ih

/-- What a character adds to a collapsed text depends on that text alone. -/
theorem collapse_cons_congr (c : Char) (h : collapse s = collapse t) :
    collapse (c :: s) = collapse (c :: t) := by
  have hhead : s.head? = t.head? := by
    rw [← head?_collapse s, h, head?_collapse]
  rw [collapse, collapse, hhead, h]

theorem collapse_append_congr (front : List Char) (h : collapse s = collapse t) :
    collapse (front ++ s) = collapse (front ++ t) := by
  induction front with
  | nil => exact h
  | cons c front ih => exact collapse_cons_congr c ih

theorem RunResized.collapse_eq (h : RunResized s t) : collapse s = collapse t := by
  cases h with
  | resize front behind m n _ hbehind =>
    apply collapse_append_congr
    rw [collapse_run hbehind m, collapse_run hbehind n]

/-! ## Texts lead to their collapsed texts -/

instance : Std.Symm RunResized where
  symm s t h := by
    cases h with
    | resize front behind m n hfront hbehind => exact .resize front behind n m hfront hbehind

theorem RunResized.head?_eq (h : RunResized s t) : s.head? = t.head? := by
  cases h with
  | resize front behind m n _ _ => cases front <;> rfl

/-- A run stays maximal behind another character. Only where the text starts with a run must that
character be no marker. -/
theorem RunResized.cons {c : Char} (hc : c = '^' → s.head? ≠ some '^') (h : RunResized s t) :
    RunResized (c :: s) (c :: t) := by
  cases h with
  | resize front behind m n hfront hbehind =>
    refine .resize (c :: front) behind m n ?_ hbehind
    cases front with
    | nil =>
      intro hlast
      exact hc (Option.some.inj hlast) rfl
    | cons d front => exact hfront

theorem leads_cons {c : Char} (hc : c = '^' → s.head? ≠ some '^')
    (h : ReflTransGen RunResized s t) : ReflTransGen RunResized (c :: s) (c :: t) := by
  induction h using ReflTransGen.head_induction_on with
  | refl => exact .refl
  | head hstep _ ih =>
    refine .head (hstep.cons hc) (ih fun hmarker => ?_)
    rw [← hstep.head?_eq]
    exact hc hmarker

/-- A text that starts with a marker starts with a maximal run. -/
theorem exists_first_run (rest : List Char) : ∃ n behind, behind.head? ≠ some '^' ∧
    '^' :: rest = List.replicate (n + 1) '^' ++ behind := by
  induction rest with
  | nil => exact ⟨0, [], by simp, rfl⟩
  | cons c rest ih =>
    by_cases hc : c = '^'
    · obtain ⟨n, behind, hbehind, hrest⟩ := ih
      refine ⟨n + 1, behind, hbehind, ?_⟩
      rw [hc, hrest]
      rfl
    · exact ⟨0, c :: rest, by simpa using hc, rfl⟩

theorem leads_to_collapse (text : List Char) : ReflTransGen RunResized text (collapse text) := by
  induction text with
  | nil => exact .refl
  | cons c rest ih =>
    rw [collapse]
    split
    · next hrun =>
      -- the first run loses a marker, and the rest leads on from there
      obtain ⟨rfl, hrest⟩ := hrun
      obtain ⟨rest, rfl⟩ := List.head?_eq_some_iff.mp hrest
      obtain ⟨n, behind, hbehind, heq⟩ := exists_first_run rest
      have hstep : RunResized ('^' :: '^' :: rest) ('^' :: rest) := by
        rw [heq]
        exact .resize [] behind (n + 1) n (by simp) hbehind
      exact .head hstep ih
    · next hkept => exact leads_cons (fun hc hrest => hkept ⟨hc, hrest⟩) ih

theorem collapse_eq_iff : collapse s = collapse t ↔ ReflTransGen RunResized s t := by
  constructor
  · intro h
    have hback : ReflTransGen RunResized (collapse t) t := Std.Symm.symm _ _ (leads_to_collapse t)
    exact (h ▸ leads_to_collapse s).trans hback
  · intro h
    induction h with
    | refl => rfl
    | tail _ hstep ih => exact ih.trans hstep.collapse_eq

end Runs

/-! ## Patterns -/

variable {limits : Limits} {p q : String}

theorem parse_eq_of_collapse_eq (h : collapse p.toList = collapse q.toList)
    (hp : p.length ≤ limits.maxLength) (hq : q.length ≤ limits.maxLength) :
    parse limits p = parse limits q := by
  rw [← parse_collapsed hp, ← parse_collapsed hq, h]

end Pattern

open Pattern

/-- **Only that there is a run of markers matters, not how long it is.** Collapsing a text forgets
the lengths of its runs and nothing else, leaves no marker behind another one, and leaves itself
nothing to do. Texts that differ by the lengths of their runs, neither of them too long, are read to
the same tree or refused for the same fault, and are compiled and rendered alike. -/
theorem collapse_forgets_run_lengths :
    (∀ s t : List Char, collapse s = collapse t ↔ Relation.ReflTransGen RunResized s t) ∧
    (∀ s : List Char, ¬ ['^', '^'] <:+: collapse s ∧ collapse (collapse s) = collapse s) ∧
    ∀ (limits : Limits) (p q : String), Relation.ReflTransGen RunResized p.toList q.toList →
      p.length ≤ limits.maxLength → q.length ≤ limits.maxLength →
      parse limits p = parse limits q ∧ compile limits p = compile limits q ∧
        render limits p = render limits q := by
  refine ⟨fun s t => collapse_eq_iff, fun s => ⟨not_infix_collapse s, collapse_collapse s⟩, ?_⟩
  intro limits p q hruns hp hq
  have hcollapse := collapse_eq_iff.mpr hruns
  have hparse := parse_eq_of_collapse_eq hcollapse hp hq
  have hempty : p.isEmpty = q.isEmpty := by
    rw [Bool.eq_iff_iff, String.isEmpty_iff, String.isEmpty_iff, ← String.toList_eq_nil_iff,
      ← String.toList_eq_nil_iff, ← collapse_eq_nil_iff, hcollapse, collapse_eq_nil_iff]
  have hcompile : compile limits p = compile limits q := by
    rw [compile, compile, hempty, hparse]
  refine ⟨hparse, hcompile, ?_⟩
  rw [render, render, hcompile]

/-- Two runs of `(a^^|b)^^^)` lose markers. Either way the stray bracket stands at 7, where it is in
the collapsed text. -/
theorem collapse_forgets_run_lengths_strayBracket :
    Relation.ReflTransGen RunResized "(a^^|b)^^^)".toList "(a^|b)^)".toList ∧
    "(a^^|b)^^^)".length ≤ 11 ∧ "(a^|b)^)".length ≤ 11 ∧
    parse ⟨11, 4⟩ "(a^^|b)^^^)" = .error (.structural ⟨.unexpectedClose, ⟨7, 8⟩, "(a^|b)^)"⟩) ∧
    parse ⟨11, 4⟩ "(a^^|b)^^^)" = parse ⟨11, 4⟩ "(a^|b)^)" ∧
    compile ⟨11, 4⟩ "(a^^|b)^^^)" = compile ⟨11, 4⟩ "(a^|b)^)" ∧
    render ⟨11, 4⟩ "(a^^|b)^^^)" = render ⟨11, 4⟩ "(a^|b)^)" := by
  have hfirst : RunResized "(a^^|b)^^^)".toList "(a^|b)^^^)".toList :=
    .resize ['(', 'a'] "|b)^^^)".toList 1 0 (by decide) (by decide)
  have hsecond : RunResized "(a^|b)^^^)".toList "(a^|b)^)".toList :=
    .resize "(a^|b)".toList [')'] 2 0 (by decide) (by decide)
  have hruns := (Relation.ReflTransGen.single hfirst).tail hsecond
  have hlong : "(a^^|b)^^^)".length ≤ 11 := by decide
  have hshort : "(a^|b)^)".length ≤ 11 := by decide
  exact ⟨hruns, hlong, hshort, rfl,
    collapse_forgets_run_lengths.2.2 ⟨11, 4⟩ _ _ hruns hlong hshort⟩

end CaretAutomata

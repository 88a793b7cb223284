import Mathlib.Data.List.Sort
import CaretAutomata.Graph.Reachable
import CaretAutomata.Proofs.Graph.Reach

/-!
# What a search from one vertex finds

The queue may hold a vertex twice, and vertices that were reached long ago. So nothing is said about
the queue by itself: a vertex counts as `Covered` if it was reached or waits, and `Searched` says that
everything covered can be reached, and that all that reached vertices lead to is covered. One turn of
the loop keeps that, whether it skips a vertex or goes on from it; when the queue is empty, covered
and reached are the same.

A vertex comes to be reached only where it has successors to look at, so the search stops exactly if
some way leads to what is no vertex (`reachable?_eq_none_iff`).
-/

namespace CaretAutomata.Graph

open Relation

variable {g : Graph} {root v w : Nat} {queue rest targets : List Nat} {reached : Std.TreeSet Nat}

/-- The vertex was reached, or it waits in the queue. -/
def Covered (queue : List Nat) (reached : Std.TreeSet Nat) (v : Nat) : Prop :=
  v ∈ reached ∨ v ∈ queue

/-- How far a search from `root` has come. -/
structure Searched (g : Graph) (root : Nat) (queue : List Nat) (reached : Std.TreeSet Nat) :
    Prop where
  start : Covered queue reached root
  sound : ∀ v, Covered queue reached v → g.Reach root v
  onward : ∀ v ∈ reached, ∀ w, g.Edge v w → Covered queue reached w
  vertex : ∀ v ∈ reached, v < g.size

theorem mem_unreached : w ∈ unreached reached targets ↔ w ∈ targets ∧ w ∉ reached := by
  rw [unreached, List.mem_filter, Bool.not_eq_true', ← Bool.not_eq_true, Std.TreeSet.contains_iff_mem]

theorem mem_insert : w ∈ reached.insert v ↔ w = v ∨ w ∈ reached := by
  rw [Std.TreeSet.mem_insert, Std.LawfulEqCmp.compare_eq_iff_eq, eq_comm]

namespace Searched

theorem init (g : Graph) (root : Nat) : Searched g root [root] ∅ where
  start := .inr (.head _)
  sound v hv := by
    rcases hv with hv | hv
    · exact absurd hv Std.TreeSet.not_mem_emptyc
    · rw [List.mem_singleton.mp hv]
  onward v hv := absurd hv Std.TreeSet.not_mem_emptyc
  vertex v hv := absurd hv Std.TreeSet.not_mem_emptyc

/-- A vertex that was reached while it waited is skipped. -/
theorem skip (h : Searched g root (v :: rest) reached) (hv : v ∈ reached) :
    Searched g root rest reached := by
  have hsame : ∀ w, Covered rest reached w ↔ Covered (v :: rest) reached w := by
    intro w
    unfold Covered
    rw [List.mem_cons]
    constructor
    · exact Or.imp_right .inr
    · rintro (hw | rfl | hw)
      · exact .inl hw
      · exact .inl hv
      · exact .inr hw
  exact {
    start := (hsame root).mpr h.start
    sound w hw := h.sound w ((hsame w).mp hw)
    onward u hu w hedge := (hsame w).mpr (h.onward u hu w hedge)
    vertex := h.vertex }

/-- A new vertex is reached, and its successors wait unless they were reached. -/
theorem goOn (h : Searched g root (v :: rest) reached) (htargets : g.successors[v]? = some targets) :
    Searched g root (rest ++ unreached (reached.insert v) targets) (reached.insert v) := by
  have hkeep : ∀ w, Covered (v :: rest) reached w →
      Covered (rest ++ unreached (reached.insert v) targets) (reached.insert v) w := by
    intro w hw
    unfold Covered at hw ⊢
    rw [List.mem_cons] at hw
    rw [mem_insert, List.mem_append]
    rcases hw with hw | rfl | hw
    · exact .inl (.inr hw)
    · exact .inl (.inl rfl)
    · exact .inr (.inl hw)
  have hroot : g.Reach root v := h.sound v (.inr (.head _))
  exact {
    start := hkeep root h.start
    sound := by
      intro w hw
      unfold Covered at hw
      rw [mem_insert, List.mem_append, mem_unreached] at hw
      rcases hw with (rfl | hw) | hw | hw
      · exact hroot
      · exact h.sound w (.inl hw)
      · exact h.sound w (.inr (.tail _ hw))
      · exact hroot.tail ((edge_iff htargets).mpr hw.1)
    onward := by
      intro u hu w hedge
      rcases mem_insert.mp hu with rfl | hu
      · by_cases hw : w ∈ reached.insert u
        · exact .inl hw
        · have hnew := mem_unreached.mpr ⟨(edge_iff htargets).mp hedge, hw⟩
          exact .inr (List.mem_append_right _ hnew)
      · exact hkeep w (h.onward u hu w hedge)
    vertex := by
      intro u hu
      rcases mem_insert.mp hu with rfl | hu
      · exact (Array.getElem?_eq_some_iff.mp htargets).1
      · exact h.vertex u hu }

/-- **The loop ends with all that it is to find, or at something that is no vertex.** -/
theorem reachLoop (h : Searched g root queue reached) :
    (∃ found, g.reachLoop? queue reached = some found ∧ Searched g root [] found) ∨
    (g.reachLoop? queue reached = none ∧ ∃ w, g.Reach root w ∧ g.size ≤ w) := by
  fun_induction reachLoop? g queue reached with
  | case1 reached => exact .inl ⟨reached, rfl, h⟩
  | case2 v rest reached hv ih => exact ih (h.skip hv)
  | case3 v rest reached hv hnone =>
    exact .inr ⟨rfl, v, h.sound v (.inr (.head _)), Array.getElem?_eq_none_iff.mp hnone⟩
  | case4 v rest reached hv reached' targets htargets ih => exact ih (h.goOn htargets)

/-- With nothing in the queue, the reached vertices are all that there are to reach. -/
theorem mem_iff (h : Searched g root [] reached) : v ∈ reached ↔ g.Reach root v := by
  have hmem : ∀ w, Covered [] reached w → w ∈ reached := fun w hw => hw.resolve_right (by simp)
  constructor
  · exact fun hv => h.sound v (.inl hv)
  · intro hreach
    induction hreach with
    | refl => exact hmem root h.start
    | tail _ hedge ih => exact hmem _ (h.onward _ ih _ hedge)

end Searched

theorem reachable?_eq_none_iff : g.reachable? v = none ↔ ∃ w, g.Reach v w ∧ g.size ≤ w := by
  rw [reachable?, Option.map_eq_none_iff]
  rcases (Searched.init g v).reachLoop with ⟨found, hfound, h⟩ | ⟨hnone, hway⟩
  · rw [hfound]
    refine iff_of_false (Option.some_ne_none _) fun hway => ?_
    obtain ⟨w, hreach, hle⟩ := hway
    exact absurd (h.vertex w (h.mem_iff.mpr hreach)) (Nat.not_lt.mpr hle)
  · exact iff_of_true hnone hway

/-- **The answer lists the vertices that can be reached**, in ascending order. -/
theorem reachable_of_closed (hg : g.Closed) (hv : v < g.size) :
    ∃ reached : Nat → Bool, g.reachable? v = some ((List.range g.size).filter reached) ∧
      ∀ w, reached w = true ↔ g.Reach v w := by
  rcases (Searched.init g v).reachLoop with ⟨found, hfound, h⟩ | ⟨hnone, w, hreach, hle⟩
  · refine ⟨found.contains, ?_, fun w => h.mem_iff⟩
    rw [reachable?, hfound]
    -- both lists are in ascending order and hold the same vertices
    have hsorted : ((List.range g.size).filter found.contains).Pairwise (· < ·) :=
      List.pairwise_lt_range.filter _
    have hascending : found.toList.Pairwise (· < ·) :=
      Std.TreeSet.ordered_toList.imp fun hlt => Nat.compare_eq_lt.mp hlt
    have hmem : ∀ w, w ∈ found.toList ↔ w ∈ (List.range g.size).filter found.contains := by
      intro w
      rw [Std.TreeSet.mem_toList, List.mem_filter, List.mem_range]
      exact ⟨fun hw => ⟨h.vertex w hw, hw⟩, And.right⟩
    exact congrArg some (hascending.eq_of_mem_iff hsorted hmem)
  · exact absurd (hg.lt_of_reach hv hreach) (Nat.not_lt.mpr hle)

end CaretAutomata.Graph

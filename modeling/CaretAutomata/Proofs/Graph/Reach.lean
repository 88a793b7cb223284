import Mathlib.Logic.Relation
import CaretAutomata.Graph.Basic

/-!
# Edges and ways

What the statements about graphs speak of. `Edge` is read off the successors and does not ask for its
target to be a vertex; `Closed` does, for all edges. A way leads from vertex to vertex but for its
last step: only a vertex has edges that leave it.
-/

namespace CaretAutomata

open Relation

theorem getElem?_written {α : Type} {a : Array α} {i : Nat} (hi : i < a.size) (x : α) (j : Nat) :
    (a.setIfInBounds i x)[j]? = if i = j then some x else a[j]? := by
  rw [Array.getElem?_setIfInBounds, if_pos hi]

namespace Graph

/-- An edge leads from `v` to `w`; nothing is said about whether `w` is a vertex. -/
def Edge (g : Graph) (v w : Nat) : Prop := ∃ targets, g.successors[v]? = some targets ∧ w ∈ targets

/-- `w` can be reached from `v` along any number of edges. -/
abbrev Reach (g : Graph) : Nat → Nat → Prop := ReflTransGen g.Edge

def Closed (g : Graph) : Prop := ∀ v w, g.Edge v w → w < g.size

def Mutual (g : Graph) (v w : Nat) : Prop := g.Reach v w ∧ g.Reach w v

variable {g : Graph} {v w : Nat}

theorem Edge.source_lt (h : g.Edge v w) : v < g.size := by
  obtain ⟨targets, hv, -⟩ := h
  exact (Array.getElem?_eq_some_iff.mp hv).1

theorem edge_iff {targets : List Nat} (hv : g.successors[v]? = some targets) :
    g.Edge v w ↔ w ∈ targets := by
  simp [Edge, hv]

theorem successors_of_lt (hv : v < g.size) : ∃ targets, g.successors[v]? = some targets :=
  ⟨_, Array.getElem?_eq_getElem hv⟩

theorem mem_edges : (v, w) ∈ g.edges ↔ g.Edge v w := by
  simp only [edges, List.mem_flatMap, List.mem_map, Prod.mk.injEq, Edge]
  constructor
  · intro h
    obtain ⟨⟨targets, u⟩, hmem, x, hx, rfl, rfl⟩ := h
    have hu := List.mem_zipIdx_iff_getElem?.mp hmem
    exact ⟨targets, by simpa using hu, hx⟩
  · intro h
    obtain ⟨targets, hv, hw⟩ := h
    have hmem : (targets, v) ∈ g.successors.toList.zipIdx :=
      List.mem_zipIdx_iff_getElem?.mpr (by simpa using hv)
    exact ⟨(targets, v), hmem, w, hw, rfl, rfl⟩

theorem Closed.lt_of_reach (hg : g.Closed) (hv : v < g.size) (h : g.Reach v w) : w < g.size := by
  induction h with
  | refl => exact hv
  | tail _ hedge _ => exact hg _ _ hedge

theorem Mutual.refl (v : Nat) : g.Mutual v v := ⟨.refl, .refl⟩

theorem Mutual.symm (h : g.Mutual v w) : g.Mutual w v := ⟨h.2, h.1⟩

theorem Mutual.trans {u : Nat} (h : g.Mutual u v) (h' : g.Mutual v w) : g.Mutual u w :=
  ⟨ReflTransGen.trans h.1 h'.1, ReflTransGen.trans h'.2 h.2⟩

/-- A graph is not closed exactly if some edge dangles. -/
theorem not_closed_iff : ¬ g.Closed ↔ ∃ v w, g.Edge v w ∧ g.size ≤ w := by
  simp [Closed]

end Graph

end CaretAutomata

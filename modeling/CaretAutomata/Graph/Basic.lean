/-! # Graphs

A graph gives the successors of each of its vertices `0, 1, …`. A successor may be no vertex at all:
whoever goes there looks up what is not there, and gets no answer. -/

namespace CaretAutomata

/-- Writes `x` at a position, if there is such a position. -/
def write? {α : Type} (a : Array α) (i : Nat) (x : α) : Option (Array α) :=
  if i < a.size then some (a.setIfInBounds i x) else none

theorem write?_eq_some {α : Type} {a b : Array α} {i : Nat} {x : α} :
    write? a i x = some b ↔ i < a.size ∧ a.setIfInBounds i x = b := by
  unfold write?
  split <;> simp [*]

/-- The successors of every vertex, in order. -/
structure Graph where
  successors : Array (List Nat)
  deriving Repr, Inhabited

namespace Graph

def size (g : Graph) : Nat := g.successors.size

/-- The edges one by one, from the first vertex to the last. -/
def edges (g : Graph) : List (Nat × Nat) :=
  g.successors.toList.zipIdx.flatMap fun (targets, v) => targets.map (v, ·)

/-- How often a loop can still look at `v` when it has gone over the first `next` of its edges:
once for each of the others, and once more to see that there are none left. -/
def turns (g : Graph) (v next : Nat) : Nat :=
  match g.successors[v]? with
  | some targets => targets.length - next + 1
  | none => 0

/-- The turns that some vertices take together. -/
def turnsOf (g : Graph) : List Nat → Nat
  | [] => 0
  | v :: rest => g.turns v 0 + g.turnsOf rest

/-- The turns of all vertices of some kind. -/
def turnsAhead (g : Graph) (ahead : Nat → Bool) : Nat :=
  g.turnsOf ((List.range g.size).filter ahead)

theorem turns_eq_zero {g : Graph} {v next : Nat} (hv : g.size ≤ v) : g.turns v next = 0 := by
  have hnone : g.successors[v]? = none := Array.getElem?_eq_none hv
  rw [turns, hnone]

theorem turnsOf_append (g : Graph) (front behind : List Nat) :
    g.turnsOf (front ++ behind) = g.turnsOf front + g.turnsOf behind := by
  induction front with
  | nil => exact (Nat.zero_add _).symm
  | cons v rest ih =>
    simp only [List.cons_append, turnsOf, ih]
    omega

section Ahead

variable {g : Graph} {ahead ahead' : Nat → Bool} {v : Nat}

theorem turnsOf_filter_le (hle : ∀ w, ahead' w = true → ahead w = true) :
    ∀ l : List Nat, g.turnsOf (l.filter ahead') ≤ g.turnsOf (l.filter ahead)
  | [] => Nat.le_refl 0
  | w :: rest => by
    have ih := turnsOf_filter_le hle rest
    cases hw' : ahead' w with
    | true =>
      simp only [List.filter_cons_of_pos hw', List.filter_cons_of_pos (hle w hw'), turnsOf]
      omega
    | false =>
      rw [List.filter_cons_of_neg (by simp [hw'])]
      cases hw : ahead w with
      | true =>
        simp only [List.filter_cons_of_pos hw, turnsOf]
        omega
      | false => rwa [List.filter_cons_of_neg (by simp [hw])]

/-- When a vertex is no longer ahead, its turns are no longer counted. -/
theorem turnsAhead_add_le (hle : ∀ w, ahead' w = true → ahead w = true) (hv : ahead v = true)
    (hv' : ahead' v = false) : g.turnsAhead ahead' + g.turns v 0 ≤ g.turnsAhead ahead := by
  unfold turnsAhead
  by_cases hlt : v < g.size
  · obtain ⟨front, behind, hrange⟩ := List.append_of_mem (List.mem_range.mpr hlt)
    have hfront := turnsOf_filter_le (g := g) hle front
    have hbehind := turnsOf_filter_le (g := g) hle behind
    rw [hrange, List.filter_append, List.filter_append, List.filter_cons_of_pos hv,
      List.filter_cons_of_neg (by simp [hv']), turnsOf_append, turnsOf_append, turnsOf]
    omega
  · rw [turns_eq_zero (Nat.not_lt.mp hlt)]
    exact turnsOf_filter_le hle _

end Ahead

end Graph

end CaretAutomata

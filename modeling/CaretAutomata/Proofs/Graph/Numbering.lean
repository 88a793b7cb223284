import Mathlib.Data.List.Basic
import CaretAutomata.Proofs.Graph.Components

/-!
# Numbers that never rise

What the numbers of components say, once the walk is over: `Numbered`, that vertices share one when
they reach each other, and `Ranked`, that no number is left out and that along an edge numbers stay or
fall. A number that falls cannot fall for ever, so whoever follows the edges ends up in a component
that nothing leaves (`exists_reach_bottom`).

One bit is kept for each component, and `closedComponents_of_closed` says what it is worth. Looking it
up takes the number of a vertex as a position, which is right because there is a bit for every number
below the largest.
-/

namespace CaretAutomata

/-! ## Asking for each member of a list -/

theorem mapM_eq_some_map {α β : Type} {f : α → Option β} {g : α → β} : ∀ {l : List α},
    (∀ x ∈ l, f x = some (g x)) → l.mapM f = some (l.map g)
  | [], _ => rfl
  | x :: rest, h => by
    rw [List.mapM_cons, h x (.head _), mapM_eq_some_map fun y hy => h y (.tail _ hy)]
    rfl

/-- There is no answer for a list exactly if there is none for some member of it. -/
theorem mapM_eq_none_iff {α β : Type} {f : α → Option β} {l : List α} :
    l.mapM f = none ↔ ∃ x ∈ l, f x = none := by
  induction l with
  | nil => simp
  | cons x rest ih =>
    rw [List.mapM_cons, List.exists_mem_cons_iff, ← ih]
    cases f x with
    | none => simp
    | some y => cases rest.mapM f <;> simp

namespace Graph

open Relation

variable {g : Graph} {numbers : Array Nat} {count : Nat}

/-! ## The numbers -/

/-- The number of every vertex below the size, and which vertices share one. -/
structure Numbered (g : Graph) (numbers : Array Nat) : Prop where
  size : numbers.size = g.size
  eq_iff : ∀ v < g.size, ∀ w < g.size, numbers.getD v 0 = numbers.getD w 0 ↔ g.Mutual v w

/-- The numbers of components: those below `count` are used, and no edge leads to a larger one. -/
structure Ranked (g : Graph) (numbers : Array Nat) (count : Nat) : Prop
    extends Numbered g numbers where
  used : ∀ n, n < count ↔ ∃ v < g.size, numbers.getD v 0 = n
  falls : ∀ v w, g.Edge v w → numbers.getD w 0 ≤ numbers.getD v 0

theorem Numbered.getElem? (h : Numbered g numbers) {v : Nat} (hv : v < g.size) :
    numbers[v]? = some (numbers.getD v 0) := by
  have hlt : v < numbers.size := h.size ▸ hv
  rw [Array.getD_eq_getD_getElem?, Array.getElem?_eq_getElem hlt, Option.getD_some]

/-- The numbers that a complete walk answers with. -/
theorem exists_numbers {w : Walk} (h : Complete g w) (hrun : g.walk? = some w) :
    ∃ numbers, g.componentNumbers? = some numbers ∧ numbers.size = g.size ∧
      ∀ v < g.size, w.Number v (numbers.getD v 0) := by
  have hall : ∀ entry ∈ w.component.toList, id entry = some (entry.getD 0) := by
    intro entry hentry
    obtain ⟨v, hv⟩ := List.mem_iff_getElem?.mp hentry
    rw [Array.getElem?_toList] at hv
    have hlt : v < g.size := h.size ▸ (Array.getElem?_eq_some_iff.mp hv).1
    obtain ⟨c, hc⟩ := h.numbered v hlt
    obtain rfl : some c = entry := Option.some.inj (hc.symm.trans hv)
    rfl
  refine ⟨(w.component.toList.map fun entry => entry.getD 0).toArray, ?_, ?_, fun v hv => ?_⟩
  · rw [componentNumbers?, hrun]
    simp only [Option.bind_eq_bind, Option.bind_some, mapM_eq_some_map hall]
    rfl
  · simp [h.size]
  · obtain ⟨c, hc⟩ := h.numbered v hv
    rw [Array.getD_eq_getD_getElem?, List.getElem?_toArray, List.getElem?_map,
      Array.getElem?_toList, hc]
    exact hc

theorem componentNumbers_ranked (hg : g.Closed) :
    ∃ numbers count, g.componentNumbers? = some numbers ∧ Ranked g numbers count := by
  rcases walk_complete g with ⟨w, hrun, h⟩ | ⟨-, hopen⟩
  · obtain ⟨numbers, hnumbers, hsize, hnumber⟩ := exists_numbers h hrun
    refine ⟨numbers, w.nextComponent, hnumbers, ⟨hsize, fun v hv u hu => ?_⟩, fun n => ?_, ?_⟩
    · exact h.number_eq_iff (hnumber v hv) (hnumber u hu)
    · constructor
      · intro hn
        obtain ⟨v, hv⟩ := h.ended.used n hn
        have hlt : v < g.size := h.size ▸ (Array.getElem?_eq_some_iff.mp hv).1
        exact ⟨v, hlt, (hnumber v hlt).unique hv⟩
      · rintro ⟨v, hv, rfl⟩
        exact h.ended.lt v _ (hnumber v hv)
    · intro v u hedge
      obtain ⟨d, hle, hd⟩ := h.ended.falls v _ (hnumber v hedge.source_lt) u hedge
      rwa [hd.unique (hnumber u (hg v u hedge))] at hle
  · exact absurd hg hopen

theorem componentNumbers_of_closed (hg : g.Closed) :
    ∃ numbers, g.componentNumbers? = some numbers ∧ Numbered g numbers := by
  obtain ⟨numbers, _, hnumbers, hranked⟩ := componentNumbers_ranked hg
  exact ⟨numbers, hnumbers, hranked.toNumbered⟩

/-- Nothing but an edge that leads to no vertex leaves a graph without numbers. -/
theorem componentNumbers?_eq_none_iff :
    g.componentNumbers? = none ↔ ∃ v w, g.Edge v w ∧ g.size ≤ w := by
  rw [← not_closed_iff]
  constructor
  · intro hnone hg
    obtain ⟨numbers, hnumbers, -⟩ := componentNumbers_of_closed hg
    rw [hnone] at hnumbers
    exact absurd hnumbers (by simp)
  · intro hopen
    rcases walk_complete g with ⟨w, -, h⟩ | ⟨hnone, -⟩
    · exact absurd h.closed hopen
    · rw [componentNumbers?, hnone]
      rfl

/-! ## What one bit for a component is worth -/

theorem le_foldl_max : ∀ (l : List Nat) (count : Nat),
    count ≤ l.foldl (fun count number => max count (number + 1)) count ∧
    ∀ n ∈ l, n < l.foldl (fun count number => max count (number + 1)) count := by
  intro l
  induction l with
  | nil => simp
  | cons first rest ih =>
    intro count
    obtain ⟨hle, hrest⟩ := ih (max count (first + 1))
    rw [List.foldl_cons]
    refine ⟨by omega, fun n hn => ?_⟩
    rcases List.mem_cons.mp hn with rfl | hn
    · omega
    · exact hrest n hn

/-- Every number has a bit. -/
theorem Numbered.lt_componentCount (h : Numbered g numbers) {v : Nat} (hv : v < g.size) :
    numbers.getD v 0 < componentCount numbers := by
  rw [componentCount, ← Array.foldl_toList]
  refine (le_foldl_max numbers.toList 0).2 _ ?_
  exact Array.mem_toList_iff.mpr (Array.mem_of_getElem? (h.getElem? hv))

/-- An edge between components leaves the one where it starts open, and nothing else changes. -/
theorem leaveOpen_of_lt {closed : Array Bool} {v w m n : Nat} (hv : numbers[v]? = some m)
    (hw : numbers[w]? = some n) (hm : m < closed.size) :
    ∃ closed', leaveOpen? numbers closed (v, w) = some closed' ∧ closed'.size = closed.size ∧
      ∀ c, closed'[c]? = some true ↔ closed[c]? = some true ∧ (m = c → n = c) := by
  simp only [leaveOpen?, hv, hw, Option.bind_eq_bind, Option.bind_some]
  by_cases heq : m = n
  · subst heq
    exact ⟨closed, if_pos rfl, rfl, by simp⟩
  · refine ⟨closed.setIfInBounds m false, ?_, by simp, fun c => ?_⟩
    · rw [if_neg heq]
      exact write?_eq_some.mpr ⟨hm, rfl⟩
    · rw [getElem?_written hm]
      by_cases hc : m = c
      · subst hc
        simp [Ne.symm heq]
      · simp [hc]

theorem foldlM_leaveOpen : ∀ {edges : List (Nat × Nat)} {closed : Array Bool},
    (∀ edge ∈ edges, ∃ m n, numbers[edge.1]? = some m ∧ numbers[edge.2]? = some n ∧
      m < closed.size) →
    ∃ closed', edges.foldlM (leaveOpen? numbers) closed = some closed' ∧
      closed'.size = closed.size ∧ ∀ c, closed'[c]? = some true ↔ closed[c]? = some true ∧
        ∀ edge ∈ edges, numbers[edge.1]? = some c → numbers[edge.2]? = some c := by
  intro edges
  induction edges with
  | nil => exact fun {closed} _ => ⟨closed, rfl, rfl, by simp⟩
  | cons edge rest ih =>
    intro closed hedges
    obtain ⟨m, n, hm, hn, hlt⟩ := hedges edge (.head _)
    obtain ⟨next, hnext, hsize, hbits⟩ := leaveOpen_of_lt hm hn hlt
    obtain ⟨last, hlast, hsize', hbits'⟩ := ih fun other hother => hsize ▸ hedges other (.tail _ hother)
    refine ⟨last, ?_, hsize'.trans hsize, fun c => ?_⟩
    · rw [List.foldlM_cons, hnext]
      exact hlast
    · rw [hbits', hbits, List.forall_mem_cons, hm, hn, and_assoc]
      simp only [Option.some.injEq]

/-- The bit of a component tells whether its edges lead to itself only. -/
theorem stays_iff (h : Numbered g numbers) (hg : g.Closed) {v : Nat} (hv : v < g.size) :
    (∀ edge ∈ g.edges, numbers[edge.1]? = some (numbers.getD v 0) →
      numbers[edge.2]? = some (numbers.getD v 0)) ↔ ∀ w, g.Reach v w → g.Reach w v := by
  have hstep : (∀ edge ∈ g.edges, numbers[edge.1]? = some (numbers.getD v 0) →
      numbers[edge.2]? = some (numbers.getD v 0)) ↔
      ∀ u w, g.Edge u w → g.Mutual u v → g.Mutual w v := by
    rw [Prod.forall]
    refine forall₂_congr fun u w => ?_
    rw [mem_edges]
    refine forall_congr' fun hedge => ?_
    have hu := hedge.source_lt
    have hw := hg u w hedge
    rw [h.getElem? hu, h.getElem? hw, Option.some.injEq, Option.some.injEq, h.eq_iff u hu v hv,
      h.eq_iff w hw v hv]
  rw [hstep]
  constructor
  · intro hstays w hw
    have hmutual : g.Mutual w v := by
      induction hw with
      | refl => exact .refl v
      | tail _ hedge ih => exact hstays _ _ hedge ih
    exact hmutual.1
  · intro hback u w hedge hmutual
    have hvw : g.Reach v w := hmutual.2.tail hedge
    exact ⟨hback w hvw, hvw⟩

/-- **No edge leaves the component of `v` exactly when everything that `v` reaches leads back.** -/
theorem closedComponents_of_closed (h : Numbered g numbers) (hg : g.Closed) :
    ∃ closed, g.closedComponents? numbers = some closed ∧ ∀ v < g.size, ∃ stays,
      closed[numbers.getD v 0]? = some stays ∧ (stays = true ↔ ∀ w, g.Reach v w → g.Reach w v) := by
  have hsize : (Array.replicate (componentCount numbers) true).size = componentCount numbers :=
    Array.size_replicate
  have hedges : ∀ edge ∈ g.edges, ∃ m n, numbers[edge.1]? = some m ∧ numbers[edge.2]? = some n ∧
      m < (Array.replicate (componentCount numbers) true).size := by
    rw [Prod.forall, hsize]
    intro u w hedge
    rw [mem_edges] at hedge
    have hu := hedge.source_lt
    exact ⟨_, _, h.getElem? hu, h.getElem? (hg u w hedge), h.lt_componentCount hu⟩
  obtain ⟨closed, hrun, hsame, hbits⟩ := foldlM_leaveOpen hedges
  refine ⟨closed, hrun, fun v hv => ?_⟩
  have hcount := h.lt_componentCount hv
  have hlt : numbers.getD v 0 < closed.size := by rwa [hsame, hsize]
  refine ⟨closed[numbers.getD v 0], Array.getElem?_eq_getElem hlt, ?_⟩
  have hbit := hbits (numbers.getD v 0)
  rw [Array.getElem?_eq_getElem hlt, Option.some.injEq, Array.getElem?_replicate, if_pos hcount,
    stays_iff h hg hv] at hbit
  simpa using hbit

/-! ## Ways out of a component -/

namespace Ranked

theorem le_of_reach (h : Ranked g numbers count) {v w : Nat} (hreach : g.Reach v w) :
    numbers.getD w 0 ≤ numbers.getD v 0 := by
  induction hreach with
  | refl => exact Nat.le_refl _
  | tail _ hedge ih => exact Nat.le_trans (h.falls _ _ hedge) ih

/-- On a way out of a component the number falls. -/
theorem lt_of_reach (h : Ranked g numbers count) {v w : Nat} (hv : v < g.size) (hw : w < g.size)
    (hreach : g.Reach v w) (hback : ¬ g.Reach w v) : numbers.getD w 0 < numbers.getD v 0 := by
  apply Nat.lt_of_le_of_ne (h.le_of_reach hreach)
  intro heq
  exact hback ((h.eq_iff w hw v hv).mp heq).1

end Ranked

/-- **From every vertex, one comes to a component that nothing leaves.** -/
theorem exists_reach_bottom (hg : g.Closed) {v : Nat} (hv : v < g.size) :
    ∃ w, g.Reach v w ∧ ∀ u, g.Reach w u → g.Reach u w := by
  obtain ⟨numbers, count, -, h⟩ := componentNumbers_ranked hg
  -- by induction on the number of `v`: if something leaves its component, go there
  induction hn : numbers.getD v 0 using Nat.strongRecOn generalizing v with
  | _ n ih =>
    by_cases hback : ∀ u, g.Reach v u → g.Reach u v
    · exact ⟨v, .refl, hback⟩
    · simp only [not_forall] at hback
      obtain ⟨u, hvu, hback⟩ := hback
      have hu : u < g.size := hg.lt_of_reach hv hvu
      obtain ⟨w, huw, hbottom⟩ := ih _ (hn ▸ h.lt_of_reach hv hu hvu hback) hu rfl
      exact ⟨w, hvu.trans huw, hbottom⟩

end Graph

end CaretAutomata

import CaretAutomata.Proofs.Graph.Leaving

/-!
# The whole walk

Each turn of the loop keeps what the walk knows, or it comes to an edge that leads to no vertex and
stops (`Sound.step`); nothing else that it looks up is ever missing. That the loop ends was said with
its definition, so a run ends in one of these two ways as well, and so does the walk from every
vertex. In the end no frame is left, hence nothing is on the stack, and whatever was visited — every
vertex — has its component (`walk_complete`).
-/

namespace CaretAutomata

open Walk

variable {g : Graph} {w : Walk} {v next root : Nat} {frames below : Frames}

theorem replicate_ne {α : Type} {n v : Nat} {a b : α} (hne : a ≠ b) :
    (Array.replicate n a)[v]? ≠ some b := by
  rw [Array.getElem?_replicate]
  split <;> simp [hne]

namespace Sound

/-- **One turn of the loop.** -/
theorem step (h : Sound g ((v, next) :: below) w) :
    (∃ frames w', g.step? v next below w = some (frames, w') ∧ Sound g frames w' ∧ Later w w') ∨
    (g.step? v next below w = none ∧ ¬ g.Closed) := by
  obtain ⟨own, -, hown, -, -, hmem⟩ := h.exists_low
  obtain ⟨targets, hv⟩ := Graph.successors_of_lt (h.lt_of_mem hmem)
  simp only [Graph.step?, hv, Option.bind_eq_bind, Option.bind_some, Option.pure_def]
  cases htarget : targets[next]? with
  | none =>
    obtain ⟨w', hrun, hsound, hlater⟩ := h.leave hv htarget
    exact .inl ⟨below, w', by simp only [hrun, Option.bind_some], hsound, hlater⟩
  | some u =>
    have hedge : g.Edge v u := (Graph.edge_iff hv).mpr (List.mem_of_getElem? htarget)
    cases hu : w.index[u]? with
    | none =>
      have hsize : g.size ≤ u := h.sizes.index ▸ Array.getElem?_eq_none_iff.mp hu
      exact .inr ⟨by simp only [hu, Option.bind_none], Graph.not_closed_iff.mpr ⟨v, u, hedge, hsize⟩⟩
    | some entry =>
      cases entry with
      | none =>
        refine .inl ⟨_, w.entered u, ?_, h.enter hu hv htarget, later_entered hu⟩
        simp only [hu, Option.bind_some, h.toKept.enter hu]
      | some i =>
        have hlt : u < w.onStack.size := h.sizes.onStack ▸ h.toKept.lt_of_index hu
        have hon := Array.getElem?_eq_getElem hlt
        cases hwaits : w.onStack[u] with
        | true =>
          rw [hwaits] at hon
          have hlower : w.lower? v i = some (w.lowered v (min own i)) :=
            lower?_eq_some.mpr ⟨own, hown, rfl⟩
          refine .inl ⟨(v, next + 1) :: below, w.lowered v (min own i), ?_, ?_, .of_eq rfl rfl⟩
          · simp only [hu, hon, Option.bind_some, if_true, hlower]
          · exact h.lower hv htarget hu ((h.onStack u).mp hon) hown
        | false =>
          rw [hwaits] at hon
          refine .inl ⟨(v, next + 1) :: below, w, ?_, ?_, .of_eq rfl rfl⟩
          · simp only [hu, hon, Option.bind_some, Bool.false_eq_true, if_false]
          · exact h.pass hv htarget hu (h.not_mem_of_onStack hon)

/-- A run of the loop ends when no frame is left, or at an edge that leads to no vertex. -/
theorem run (h : Sound g frames w) :
    (∃ w', g.run? frames w = some w' ∧ Sound g [] w' ∧ Later w w') ∨
    (g.run? frames w = none ∧ ¬ g.Closed) := by
  fun_induction Graph.run? g frames w with
  | case1 w => exact .inl ⟨w, rfl, h, .of_eq rfl rfl⟩
  | case2 w v next below hnone =>
    rcases h.step with ⟨frames, w', hstep, -⟩ | ⟨-, hclosed⟩
    · rw [hstep] at hnone
      exact absurd hnone (by simp)
    · exact .inr ⟨rfl, hclosed⟩
  | case3 w v next below frames w' hstep ih =>
    rcases h.step with ⟨frames', w'', hstep', hsound, hlater⟩ | ⟨hnone, -⟩
    · obtain ⟨rfl, rfl⟩ := Prod.mk.inj (Option.some.inj (hstep.symm.trans hstep'))
      rcases ih hsound with ⟨last, hrun, hlast, hlater'⟩ | hstopped
      · exact .inl ⟨last, hrun, hlast, hlater.trans hlater'⟩
      · exact .inr hstopped
    · rw [hstep] at hnone
      exact absurd hnone (by simp)

theorem visitFrom (h : Sound g [] w) (hroot : root < g.size) :
    (∃ w', g.visitFrom? w root = some w' ∧ Sound g [] w' ∧ Later w w' ∧ w'.Visited root) ∨
    (g.visitFrom? w root = none ∧ ¬ g.Closed) := by
  have hlt : root < w.index.size := h.sizes.index ▸ hroot
  have hentry := Array.getElem?_eq_getElem hlt
  simp only [Graph.visitFrom?, hentry, Option.bind_eq_bind, Option.bind_some]
  cases hroot : w.index[root] with
  | some i => exact .inl ⟨w, rfl, h, .of_eq rfl rfl, i, hentry.trans (congrArg some hroot)⟩
  | none =>
    rw [hroot] at hentry
    simp only [h.toKept.enter hentry, Option.bind_some]
    rcases (h.setOut hentry).run with ⟨w', hrun, hsound, hlater⟩ | hstopped
    · have hvisited : (w.entered root).Visited root :=
        ⟨w.nextIndex, (index_entered hentry).mpr (.inl ⟨rfl, rfl⟩)⟩
      exact .inl ⟨w', hrun, hsound, (later_entered hentry).trans hlater, hlater.visited hvisited⟩
    · exact .inr hstopped

theorem visitAll : ∀ {roots : List Nat} {w : Walk}, Sound g [] w → (∀ root ∈ roots, root < g.size) →
    (∃ w', roots.foldlM g.visitFrom? w = some w' ∧ Sound g [] w' ∧ Later w w' ∧
      ∀ root ∈ roots, w'.Visited root) ∨
    (roots.foldlM g.visitFrom? w = none ∧ ¬ g.Closed) := by
  intro roots
  induction roots with
  | nil => exact fun {w} h _ => .inl ⟨w, rfl, h, .of_eq rfl rfl, by simp⟩
  | cons root rest ih =>
    intro w h hroots
    rw [List.foldlM_cons]
    rcases h.visitFrom (hroots root (.head _)) with ⟨w', hrun, hsound, hlater, hvisited⟩ | ⟨hnone, hg⟩
    · rw [hrun]
      rcases ih hsound fun x hx => hroots x (.tail _ hx) with
        ⟨last, hlast, hsound', hlater', hrest⟩ | hstopped
      · refine .inl ⟨last, hlast, hsound', hlater.trans hlater', fun x hx => ?_⟩
        rcases List.mem_cons.mp hx with rfl | hx
        · exact hlater'.visited hvisited
        · exact hrest x hx
      · exact .inr hstopped
    · rw [hnone]
      exact .inr ⟨rfl, hg⟩

theorem start (g : Graph) : Sound g [] (.start g.size) :=
  have hindex : ∀ v i, ¬ (Walk.start g.size).Index v i := fun _ _ => replicate_ne (by simp)
  have hnumber : ∀ v c, ¬ (Walk.start g.size).Number v c := fun _ _ => replicate_ne (by simp)
  have hstack : (Walk.start g.size).stack = [] := rfl
  { sizes := ⟨Array.size_replicate, Array.size_replicate, Array.size_replicate,
      Array.size_replicate⟩
    onStack := fun v => iff_of_false (replicate_ne (by simp)) (by simp [hstack])
    index_lt := fun v i hi => absurd hi (hindex v i)
    descending := .nil
    visited := fun v => by simp [Visited, Numbered, hindex, hnumber, hstack]
    apart := fun v hv => absurd hv (by simp [hstack])
    ended :=
      { lt := fun v c hc => absurd hc (hnumber v c)
        used := fun c hc => absurd hc (Nat.not_lt_zero c)
        falls := fun v c hc => absurd hc (hnumber v c)
        same := fun v u c hc => absurd hc (hnumber v c) }
    layers := .nil }

end Sound

/-- What the walk leaves: every vertex has its component, and all components have ended. -/
structure Complete (g : Graph) (w : Walk) : Prop where
  size : w.component.size = g.size
  numbered : ∀ v < g.size, w.Numbered v
  ended : Ended g w

/-- **The walk gives every vertex its component**, or it stops at an edge that leads to no vertex. -/
theorem walk_complete (g : Graph) :
    (∃ w, g.walk? = some w ∧ Complete g w) ∨ (g.walk? = none ∧ ¬ g.Closed) := by
  have hroots : ∀ root ∈ List.range g.size, root < g.size := fun root => List.mem_range.mp
  rcases (Sound.start g).visitAll hroots with ⟨w, hrun, hsound, -, hvisited⟩ | hstopped
  · refine .inl ⟨w, hrun, hsound.sizes.component, fun v hv => ?_, hsound.ended⟩
    have hv := (hsound.visited v).mp (hvisited v (List.mem_range.mpr hv))
    rw [hsound.layers.eq_nil] at hv
    exact hv.resolve_left (by simp)
  · exact .inr hstopped

namespace Complete

variable {u c d : Nat} (h : Complete g w)
include h

/-- A graph that was walked through has no edge that leads to no vertex. -/
theorem closed : g.Closed := by
  intro v u hedge
  obtain ⟨c, hc⟩ := h.numbered v hedge.source_lt
  obtain ⟨d, -, hd⟩ := h.ended.falls v c hc u hedge
  exact h.size ▸ (Array.getElem?_eq_some_iff.mp hd).1

theorem le_of_reach (hv : w.Number v c) (hreach : g.Reach v u) : ∃ d ≤ c, w.Number u d := by
  induction hreach with
  | refl => exact ⟨c, Nat.le_refl c, hv⟩
  | tail _ hedge ih =>
    obtain ⟨d, hle, hd⟩ := ih
    obtain ⟨e, hle', he⟩ := h.ended.falls _ d hd _ hedge
    exact ⟨e, Nat.le_trans hle' hle, he⟩

/-- Vertices with one number reach each other, and no others do. -/
theorem number_eq_iff (hv : w.Number v c) (hu : w.Number u d) : c = d ↔ g.Mutual v u := by
  constructor
  · rintro rfl
    exact ⟨h.ended.same v u c hv hu, h.ended.same u v c hu hv⟩
  · intro hmutual
    obtain ⟨d', hle, hd'⟩ := h.le_of_reach hv hmutual.1
    obtain ⟨c', hle', hc'⟩ := h.le_of_reach hu hmutual.2
    rw [hd'.unique hu] at hle
    rw [hc'.unique hv] at hle'
    exact Nat.le_antisymm hle' hle

end Complete

end CaretAutomata

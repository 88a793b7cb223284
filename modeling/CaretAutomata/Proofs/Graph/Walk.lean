import CaretAutomata.Graph.Components
import CaretAutomata.Proofs.Graph.Reach

/-!
# What the walk knows

The invariant of the walk has two parts. `Kept` is about its arrays: the marks say what is on the
stack, indices fall from its top down, whatever was visited is on the stack or has a component, and
the components that have ended are closed off. `Layers` is about its frames: the stack is cut at the
vertices of the frames, and each frame has a `Layer` — what was put above its vertex and is done with,
and what lies below.

The part of a layer that is easy to miss is `back`: everything on the stack from the layer's top down
to the bottom leads to its vertex, not only what was put there since. It is what makes the members of
a component reach each other, and it survives the merging of two layers because the vertex that is
left has a way back to something below itself.

A vertex is `Known` to a frame if it was visited and, where it still waits for its component, is not
before the least index that the frame has noted. When all edges of a layer lead to what is known, and
the least index noted is that of the layer's own vertex, no edge leads to the stack below.
-/

namespace CaretAutomata

open Relation

namespace Walk

/-- The vertex was visited, and the `i`-th to be so. -/
def Index (w : Walk) (v i : Nat) : Prop := w.index[v]? = some (some i)

def Visited (w : Walk) (v : Nat) : Prop := ∃ i, w.Index v i

/-- The vertex lies in the `c`-th component. -/
def Number (w : Walk) (v c : Nat) : Prop := w.component[v]? = some (some c)

def Numbered (w : Walk) (v : Nat) : Prop := ∃ c, w.Number v c

/-- The vertex was visited, and as long as it waits for its component, it is not one of those that
were visited before `low`. -/
def Known (w : Walk) (low v : Nat) : Prop := ∃ i, w.Index v i ∧ (v ∈ w.stack → low ≤ i)

variable {w w' : Walk} {v u i j low : Nat}

theorem Index.unique (h : w.Index v i) (h' : w.Index v j) : i = j :=
  Option.some.inj (Option.some.inj (h.symm.trans h'))

theorem Number.unique {c d : Nat} (h : w.Number v c) (h' : w.Number v d) : c = d :=
  Option.some.inj (Option.some.inj (h.symm.trans h'))

theorem Known.mono (h : w.Known i v) (hle : low ≤ i) : w.Known low v := by
  obtain ⟨j, hindex, hj⟩ := h
  exact ⟨j, hindex, fun hmem => Nat.le_trans hle (hj hmem)⟩

theorem Known.visited (h : w.Known low v) : w.Visited v := by
  obtain ⟨i, hindex, -⟩ := h
  exact ⟨i, hindex⟩

/-- A later state of the walk: indices stay, and nothing that was visited comes back to the stack. -/
structure Later (w w' : Walk) : Prop where
  index : ∀ v i, w.Index v i → w'.Index v i
  stack : ∀ v ∈ w'.stack, w.Visited v → v ∈ w.stack

theorem Later.known (h : Later w w') (hknown : w.Known low v) : w'.Known low v := by
  obtain ⟨i, hindex, hi⟩ := hknown
  exact ⟨i, h.index v i hindex, fun hmem => hi (h.stack v hmem ⟨i, hindex⟩)⟩

theorem Later.visited (h : Later w w') (hvisited : w.Visited v) : w'.Visited v := by
  obtain ⟨i, hindex⟩ := hvisited
  exact ⟨i, h.index v i hindex⟩

theorem Later.trans {w'' : Walk} (h : Later w w') (h' : Later w' w'') : Later w w'' where
  index v i hi := h'.index v i (h.index v i hi)
  stack v hmem hvisited := h.stack v (h'.stack v hmem (h.visited hvisited)) hvisited

theorem Later.of_eq (hindex : w'.index = w.index) (hstack : w'.stack = w.stack) : Later w w' where
  index v i h := by rwa [Index, hindex]
  stack v h _ := hstack ▸ h

end Walk

open Walk

/-! ## The two parts of the invariant -/

/-- The components that have ended: each closed off, and what they lead to ended before. -/
structure Ended (g : Graph) (w : Walk) : Prop where
  lt : ∀ v c, w.Number v c → c < w.nextComponent
  used : ∀ c < w.nextComponent, ∃ v, w.Number v c
  falls : ∀ v c, w.Number v c → ∀ u, g.Edge v u → ∃ d ≤ c, w.Number u d
  same : ∀ v u c, w.Number v c → w.Number u c → g.Reach v u

/-- Every array has an entry for every vertex. -/
structure Sized (g : Graph) (w : Walk) : Prop where
  index : w.index.size = g.size
  low : w.low.size = g.size
  onStack : w.onStack.size = g.size
  component : w.component.size = g.size

/-- What the arrays of a walk say. -/
structure Kept (g : Graph) (w : Walk) : Prop where
  sizes : Sized g w
  onStack : ∀ v, w.onStack[v]? = some true ↔ v ∈ w.stack
  index_lt : ∀ v i, w.Index v i → i < w.nextIndex
  descending : w.stack.Pairwise fun v u => ∀ i j, w.Index v i → w.Index u j → j < i
  visited : ∀ v, w.Visited v ↔ v ∈ w.stack ∨ w.Numbered v
  apart : ∀ v ∈ w.stack, ¬ w.Numbered v
  ended : Ended g w

/-- What is known of a frame at `v`, with `done` above `v` on the stack and `rest` below. -/
structure Layer (g : Graph) (w : Walk) (v next low : Nat) (done rest : List Nat) : Prop where
  noted : w.low[v]? = some low
  low_le : ∃ i, w.Index v i ∧ low ≤ i
  back : ∀ x ∈ done ++ v :: rest, g.Reach x v
  forth : ∀ x ∈ done, g.Reach v x
  /-- The least index noted is that of a vertex which `v` has a way back to. -/
  least : ∃ y ∈ done ++ v :: rest, w.Index y low ∧ g.Reach v y
  known : ∀ x ∈ done, ∀ u, g.Edge x u → w.Known low u
  looked : ∀ targets, g.successors[v]? = some targets → ∀ u ∈ targets.take next, w.Known low u

/-- The stack, cut at the vertices of the frames. -/
inductive Layers (g : Graph) (w : Walk) : Frames → List Nat → Prop where
  | nil : Layers g w [] []
  | cons {v next low : Nat} {done rest : List Nat} {below : Frames}
      (layer : Layer g w v next low done rest)
      (link : ∀ parent ∈ below.head?, g.Edge parent.1 v) (layers : Layers g w below rest) :
      Layers g w ((v, next) :: below) (done ++ v :: rest)

/-- The invariant of the walk. -/
structure Sound (g : Graph) (frames : Frames) (w : Walk) : Prop extends Kept g w where
  layers : Layers g w frames w.stack

variable {g : Graph} {w w' : Walk} {v u next low i : Nat} {done rest targets : List Nat}
  {frames below : Frames}

theorem Layer.low_eq {low' : Nat} (h : Layer g w v next low done rest)
    (hlow : w.low[v]? = some low') : low = low' :=
  Option.some.inj (h.noted.symm.trans hlow)

/-! ## Layers of a later state -/

theorem Layer.later (h : Layer g w v next low done rest) (hlater : Later w w')
    (hlow : w'.low[v]? = w.low[v]?) : Layer g w' v next low done rest where
  noted := hlow.trans h.noted
  low_le := by
    obtain ⟨i, hindex, hle⟩ := h.low_le
    exact ⟨i, hlater.index v i hindex, hle⟩
  back := h.back
  forth := h.forth
  least := by
    obtain ⟨y, hmem, hindex, hreach⟩ := h.least
    exact ⟨y, hmem, hlater.index y low hindex, hreach⟩
  known x hx u hedge := hlater.known (h.known x hx u hedge)
  looked targets hv u hu := hlater.known (h.looked targets hv u hu)

theorem Layers.later {stack : List Nat} (h : Layers g w frames stack) (hlater : Later w w')
    (hlow : ∀ v ∈ stack, w'.low[v]? = w.low[v]?) : Layers g w' frames stack := by
  induction h with
  | nil => exact .nil
  | @cons v next low done rest below layer link layers ih =>
    refine .cons (layer.later hlater (hlow v (by simp))) link (ih fun u hu => hlow u ?_)
    exact List.mem_append_right _ (.tail _ hu)

/-- A frame notes an index that is not larger than the one it has noted so far. -/
theorem Layer.lower (h : Layer g w v next low done rest) (hlater : Later w w') {low' : Nat}
    (hlow : w'.low[v]? = some low') (hle : low' ≤ low)
    (hleast : ∃ y ∈ done ++ v :: rest, w.Index y low' ∧ g.Reach v y) :
    Layer g w' v next low' done rest where
  noted := hlow
  low_le := by
    obtain ⟨i, hindex, hi⟩ := h.low_le
    exact ⟨i, hlater.index v i hindex, Nat.le_trans hle hi⟩
  back := h.back
  forth := h.forth
  least := by
    obtain ⟨y, hmem, hindex, hreach⟩ := hleast
    exact ⟨y, hmem, hlater.index y low' hindex, hreach⟩
  known x hx u hedge := (hlater.known (h.known x hx u hedge)).mono hle
  looked targets hv u hu := (hlater.known (h.looked targets hv u hu)).mono hle

/-- A frame has looked at one more edge. -/
theorem Layer.advance (h : Layer g w v next low done rest) (hv : g.successors[v]? = some targets)
    (htarget : targets[next]? = some u) (hknown : w.Known low u) :
    Layer g w v (next + 1) low done rest where
  noted := h.noted
  low_le := h.low_le
  back := h.back
  forth := h.forth
  least := h.least
  known := h.known
  looked targets' hv' x hx := by
    obtain rfl : targets = targets' := Option.some.inj (hv.symm.trans hv')
    rw [List.take_add_one, htarget, Option.toList_some, List.mem_append, List.mem_singleton] at hx
    rcases hx with hx | rfl
    · exact h.looked targets hv x hx
    · exact hknown

theorem Layers.split {stack : List Nat} (h : Layers g w ((v, next) :: below) stack) :
    ∃ low done rest, stack = done ++ v :: rest ∧ Layer g w v next low done rest ∧
      (∀ parent ∈ below.head?, g.Edge parent.1 v) ∧ Layers g w below rest := by
  cases h with
  | cons layer link layers => exact ⟨_, _, _, rfl, layer, link, layers⟩

theorem Layers.eq_nil {stack : List Nat} (h : Layers g w [] stack) : stack = [] := by
  cases h
  rfl

/-- The innermost frame has looked at one more edge. -/
theorem Layers.advance {stack : List Nat} (h : Layers g w ((v, next) :: below) stack)
    (hv : g.successors[v]? = some targets) (htarget : targets[next]? = some u)
    (hknown : ∀ low, w.low[v]? = some low → w.Known low u) :
    Layers g w ((v, next + 1) :: below) stack := by
  obtain ⟨low, done, rest, rfl, layer, link, layers⟩ := h.split
  exact .cons (layer.advance hv htarget (hknown low layer.noted)) link layers

/-- The innermost frame notes an index, which is smaller than its own only if `v` has a way back to
the vertex with that index. -/
theorem Layers.lower {stack : List Nat} {own : Nat} (h : Layers g w ((v, next) :: below) stack)
    (hnodup : stack.Nodup) (hown : w.low[v]? = some own)
    (hback : i < own → ∃ y ∈ stack, w.Index y i ∧ g.Reach v y) :
    Layers g (w.lowered v (min own i)) ((v, next) :: below) stack := by
  obtain ⟨low, done, rest, rfl, layer, link, layers⟩ := h.split
  obtain rfl := layer.low_eq hown
  have hlater : Later w (w.lowered v (min low i)) := .of_eq rfl rfl
  have hv : v < w.low.size := (Array.getElem?_eq_some_iff.mp hown).1
  have hlow : ∀ x, (w.lowered v (min low i)).low[x]? =
      if v = x then some (min low i) else w.low[x]? := getElem?_written hv _
  have hleast : ∃ y ∈ done ++ v :: rest, w.Index y (min low i) ∧ g.Reach v y := by
    cases Nat.lt_or_ge i low with
    | inl hlt =>
      rw [Nat.min_eq_right (Nat.le_of_lt hlt)]
      exact hback hlt
    | inr hge =>
      rw [Nat.min_eq_left hge]
      exact layer.least
  have hrest : v ∉ rest := fun hmem =>
    (List.nodup_cons.mp (List.nodup_append.mp hnodup).2.1).1 hmem
  refine .cons (layer.lower hlater (by rw [hlow, if_pos rfl]) (Nat.min_le_left low i) hleast) link ?_
  refine layers.later hlater fun x hx => ?_
  rw [hlow, if_neg]
  rintro rfl
  exact hrest hx

/-- A vertex that was just visited gets a layer of its own. -/
theorem Layers.push {stack : List Nat} (h : Layers g w frames stack)
    (hlink : ∀ parent ∈ frames.head?, g.Edge parent.1 u) (hback : ∀ x ∈ stack, g.Reach x u)
    (hindex : w.Index u i) (hlow : w.low[u]? = some i) : Layers g w ((u, 0) :: frames) (u :: stack) :=
  have hlayer : Layer g w u 0 i [] stack := {
    noted := hlow
    low_le := ⟨i, hindex, Nat.le_refl i⟩
    back := by
      intro x hx
      rcases List.mem_cons.mp hx with rfl | hx
      · exact .refl
      · exact hback x hx
    forth := by simp
    least := ⟨u, .head _, hindex, .refl⟩
    known := by simp
    looked := by simp }
  .cons hlayer hlink h

/-! ## A vertex is visited -/

namespace Walk

theorem index_entered (hnew : w.index[u]? = some none) :
    (w.entered u).Index v i ↔ v = u ∧ i = w.nextIndex ∨ w.Index v i := by
  have hu : u < w.index.size := (Array.getElem?_eq_some_iff.mp hnew).1
  unfold Index Walk.entered
  rw [getElem?_written hu]
  by_cases hv : u = v
  · subst hv
    simp [hnew, eq_comm]
  · simp [hv, Ne.symm hv]

theorem not_visited (hnew : w.index[u]? = some none) : ¬ w.Visited u := by
  intro hvisited
  obtain ⟨i, hi⟩ := hvisited
  rw [Index, hnew] at hi
  exact absurd hi (by simp)

theorem later_entered (hnew : w.index[u]? = some none) : Later w (w.entered u) where
  index v i hv := (index_entered hnew).mpr (.inr hv)
  stack v hmem hvisited := by
    rcases List.mem_cons.mp hmem with rfl | hmem
    · exact absurd hvisited (not_visited hnew)
    · exact hmem

end Walk

/-! ## The arrays -/

namespace Kept

theorem lt_of_mem (h : Kept g w) (hv : v ∈ w.stack) : v < g.size := by
  obtain ⟨hlt, -⟩ := Array.getElem?_eq_some_iff.mp ((h.onStack v).mpr hv)
  exact h.sizes.onStack ▸ hlt

theorem lt_of_index (h : Kept g w) {entry : Option Nat} (hu : w.index[u]? = some entry) :
    u < g.size := by
  obtain ⟨hlt, -⟩ := Array.getElem?_eq_some_iff.mp hu
  exact h.sizes.index ▸ hlt

theorem not_mem_of_onStack (h : Kept g w) (hv : w.onStack[v]? = some false) : v ∉ w.stack := by
  intro hmem
  rw [(h.onStack v).mpr hmem] at hv
  exact absurd hv (by simp)

theorem exists_index (h : Kept g w) (hv : v ∈ w.stack) : ∃ i, w.Index v i :=
  (h.visited v).mpr (.inl hv)

theorem nodup (h : Kept g w) : w.stack.Nodup := by
  refine h.descending.imp_of_mem fun {x y} hx _ hxy heq => ?_
  subst heq
  obtain ⟨i, hi⟩ := h.exists_index hx
  exact absurd (hxy i i hi hi) (Nat.lt_irrefl i)

theorem not_mem_of_append {group : List Nat} (h : Kept g w) (hstack : w.stack = group ++ rest)
    {x : Nat} (hx : x ∈ group) : x ∉ rest := by
  have hnodup := h.nodup
  rw [hstack] at hnodup
  exact fun hrest => (List.nodup_append.mp hnodup).2.2 x hx x hrest rfl

section Cut

variable (h : Kept g w) (hstack : w.stack = done ++ v :: rest) {x j : Nat}
include h hstack

/-- What lies below `v` was visited before it. -/
theorem index_lt_of_rest (hv : w.Index v i) (hx : x ∈ rest) (hj : w.Index x j) : j < i := by
  have hpairwise := h.descending
  rw [hstack] at hpairwise
  have hcons := (List.pairwise_append.mp hpairwise).2.1
  exact (List.pairwise_cons.mp hcons).1 x hx i j hv hj

/-- What was visited before `v` lies below it. -/
theorem mem_rest_of_index_lt (hv : w.Index v i) (hx : x ∈ w.stack) (hj : w.Index x j)
    (hlt : j < i) : x ∈ rest := by
  have hpairwise := h.descending
  rw [hstack] at hpairwise hx
  rcases List.mem_append.mp hx with hdone | hcons
  · have := (List.pairwise_append.mp hpairwise).2.2 x hdone v (.head _) j i hj hv
    exact absurd hlt (Nat.not_lt.mpr (Nat.le_of_lt this))
  · rcases List.mem_cons.mp hcons with rfl | hrest
    · exact absurd (hj.unique hv) (Nat.ne_of_lt hlt)
    · exact hrest

end Cut

/-- A vertex is visited: it comes on top of the stack, with an index larger than all others. -/
theorem entered (h : Kept g w) (hnew : w.index[u]? = some none) : Kept g (w.entered u) where
  sizes :=
    { index := by simpa [Walk.entered] using h.sizes.index
      low := by simpa [Walk.entered] using h.sizes.low
      onStack := by simpa [Walk.entered] using h.sizes.onStack
      component := h.sizes.component }
  onStack v := by
    have hu : u < w.onStack.size := h.sizes.onStack ▸ h.lt_of_index hnew
    show (w.onStack.setIfInBounds u true)[v]? = some true ↔ v ∈ u :: w.stack
    rw [getElem?_written hu, List.mem_cons, ← h.onStack v]
    by_cases hv : u = v
    · simp [hv]
    · simp [hv, Ne.symm hv]
  index_lt v i hv := by
    rcases (index_entered hnew).mp hv with ⟨-, rfl⟩ | hv
    · exact Nat.lt_succ_self _
    · exact Nat.lt_succ_of_lt (h.index_lt v i hv)
  descending := by
    have hold : ∀ {x i}, x ∈ w.stack → (w.entered u).Index x i → w.Index x i := by
      intro x i hx hi
      refine ((index_entered hnew).mp hi).resolve_left fun heq => ?_
      exact not_visited hnew ((h.visited u).mpr (.inl (heq.1 ▸ hx)))
    refine List.pairwise_cons.mpr ⟨fun x hx i j hi hj => ?_, ?_⟩
    · -- the new index is the next one, which no old one has come to
      rcases (index_entered hnew).mp hi with ⟨-, rfl⟩ | hi
      · exact h.index_lt x j (hold hx hj)
      · exact absurd ⟨i, hi⟩ (not_visited hnew)
    · refine h.descending.imp_of_mem fun {x y} hx hy hxy i j hi hj => ?_
      exact hxy i j (hold hx hi) (hold hy hj)
  visited v := by
    have hiff : (w.entered u).Visited v ↔ v = u ∨ w.Visited v := by
      simp [Visited, index_entered hnew, exists_or]
    rw [hiff, h.visited v, ← or_assoc, ← List.mem_cons]
    rfl
  apart v hv := by
    rcases List.mem_cons.mp hv with rfl | hv
    · exact fun hnumbered => not_visited hnew ((h.visited v).mpr (.inr hnumbered))
    · exact h.apart v hv
  ended := ⟨h.ended.lt, h.ended.used, h.ended.falls, h.ended.same⟩

theorem lowered (h : Kept g w) (v low : Nat) : Kept g (w.lowered v low) where
  sizes :=
    { index := h.sizes.index
      low := by simpa [Walk.lowered] using h.sizes.low
      onStack := h.sizes.onStack
      component := h.sizes.component }
  onStack := h.onStack
  index_lt := h.index_lt
  descending := h.descending
  visited := h.visited
  apart := h.apart
  ended := ⟨h.ended.lt, h.ended.used, h.ended.falls, h.ended.same⟩

/-- Whatever has an index can be visited. -/
theorem enter (h : Kept g w) (hnew : w.index[u]? = some none) :
    w.enter? u = some (w.entered u) := by
  have hlt := h.lt_of_index hnew
  exact enter?_eq_some.mpr
    ⟨⟨h.sizes.index ▸ hlt, h.sizes.low ▸ hlt, h.sizes.onStack ▸ hlt⟩, rfl⟩

end Kept

/-! ## The turns of the loop -/

namespace Sound

theorem exists_low (h : Sound g ((v, next) :: below) w) :
    ∃ low i, w.low[v]? = some low ∧ w.Index v i ∧ low ≤ i ∧ v ∈ w.stack := by
  obtain ⟨low, done, rest, hstack, layer, -, -⟩ := h.layers.split
  obtain ⟨i, hindex, hle⟩ := layer.low_le
  exact ⟨low, i, layer.noted, hindex, hle, by simp [hstack]⟩

section Entered

variable (hnew : w.index[u]? = some none)
include hnew

theorem layers_entered (h : Sound g frames w) : Layers g (w.entered u) frames w.stack := by
  refine h.layers.later (later_entered hnew) fun v hv => ?_
  have hne : u ≠ v := by
    rintro rfl
    exact not_visited hnew ((h.visited u).mpr (.inl hv))
  show (w.low.setIfInBounds u w.nextIndex)[v]? = _
  rw [Array.getElem?_setIfInBounds, if_neg hne]

theorem low_entered (h : Kept g w) : (w.entered u).low[u]? = some w.nextIndex := by
  have hlt : u < w.low.size := h.sizes.low ▸ h.lt_of_index hnew
  show (w.low.setIfInBounds u w.nextIndex)[u]? = _
  rw [getElem?_written hlt, if_pos rfl]

/-- The walk sets out from a vertex. -/
theorem setOut (h : Sound g [] w) : Sound g [(u, 0)] (w.entered u) where
  toKept := h.toKept.entered hnew
  layers := by
    have hindex := (index_entered hnew).mpr (.inl ⟨rfl, rfl⟩)
    refine (h.layers_entered hnew).push (by simp) (fun x hx => ?_) hindex (low_entered hnew h.toKept)
    rw [h.layers.eq_nil] at hx
    exact absurd hx (by simp)

/-- The innermost frame has an edge to a vertex that was not visited. -/
theorem enter (h : Sound g ((v, next) :: below) w) (hv : g.successors[v]? = some targets)
    (htarget : targets[next]? = some u) :
    Sound g ((u, 0) :: (v, next + 1) :: below) (w.entered u) where
  toKept := h.toKept.entered hnew
  layers := by
    have hedge : g.Edge v u := (Graph.edge_iff hv).mpr (List.mem_of_getElem? htarget)
    have hindex := (index_entered hnew).mpr (.inl ⟨rfl, rfl⟩)
    have hlayers := h.layers_entered hnew
    have hknown : ∀ low, (w.entered u).low[v]? = some low → (w.entered u).Known low u := by
      intro low hlow
      obtain ⟨low', done, rest, -, layer, -, -⟩ := hlayers.split
      obtain rfl := layer.low_eq hlow
      -- the frame's own vertex was visited before `u`
      obtain ⟨i, hi, hle⟩ := layer.low_le
      have hlt : i < w.nextIndex + 1 := (h.toKept.entered hnew).index_lt v i hi
      exact ⟨w.nextIndex, hindex, fun _ => Nat.le_trans hle (Nat.le_of_lt_succ hlt)⟩
    refine (hlayers.advance hv htarget hknown).push ?_ (fun x hx => ?_) hindex
      (low_entered hnew h.toKept)
    · simpa using hedge
    · obtain ⟨low, done, rest, hstack, layer, -, -⟩ := h.layers.split
      exact (layer.back x (hstack ▸ hx)).tail hedge

end Entered

/-- It has an edge to a vertex that waits for its component. -/
theorem lower (h : Sound g ((v, next) :: below) w) (hv : g.successors[v]? = some targets)
    (htarget : targets[next]? = some u) (hu : w.Index u i) (hwaits : u ∈ w.stack) {own : Nat}
    (hown : w.low[v]? = some own) :
    Sound g ((v, next + 1) :: below) (w.lowered v (min own i)) where
  toKept := h.toKept.lowered v _
  layers := by
    have hedge : g.Edge v u := (Graph.edge_iff hv).mpr (List.mem_of_getElem? htarget)
    have hlayers := h.layers.lower h.nodup hown fun _ => ⟨u, hwaits, hu, .single hedge⟩
    refine hlayers.advance hv htarget fun low hlow => ⟨i, hu, fun _ => ?_⟩
    have hsize : v < w.low.size := (Array.getElem?_eq_some_iff.mp hown).1
    rw [Walk.lowered, getElem?_written hsize, if_pos rfl] at hlow
    obtain rfl := Option.some.inj hlow
    exact Nat.min_le_right own i

/-- It has an edge to a vertex whose component is known. -/
theorem pass (h : Sound g ((v, next) :: below) w) (hv : g.successors[v]? = some targets)
    (htarget : targets[next]? = some u) (hu : w.Index u i) (hknown : u ∉ w.stack) :
    Sound g ((v, next + 1) :: below) w where
  toKept := h.toKept
  layers := h.layers.advance hv htarget fun _ _ => ⟨i, hu, fun hmem => absurd hmem hknown⟩

end Sound

end CaretAutomata

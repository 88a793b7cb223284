import CaretAutomata.Proofs.Graph.Walk

/-!
# A frame is left

When all edges of a vertex were looked at, its frame goes. Either the vertex has noted a way back to
something below itself: then all that its layer holds leads back there too, over the vertex, and the
layer becomes a part of the one below (`Layer.merge`). Or it has not: then its group, from the top of
the stack down to the vertex, is closed off (`Layer.closedOff`), its members reach each other over
the vertex, and the group is a component (`Sound.release`).

In between, the frame below notes what the vertex has noted. That is of use in the first case only,
but it is done in both; in the second it changes nothing, since an index that was given later is not
smaller.
-/

namespace CaretAutomata

open Walk

variable {g : Graph} {w w' : Walk} {v u next low i : Nat} {done rest targets : List Nat}
  {frames below : Frames}

namespace Sound

/-- What `v` has a way back to is noted by the frame below, if there is one. -/
theorem inherit (h : Sound g ((v, next) :: below) w) : ∃ w', w.inherit? v below = some w' ∧
    Sound g ((v, next) :: below) w' ∧ Later w w' ∧ w'.low[v]? = w.low[v]? ∧
    ∀ parent ∈ below.head?, ∀ low own, w'.low[v]? = some low → w'.low[parent.1]? = some own →
      own ≤ low := by
  cases below with
  | nil => exact ⟨w, rfl, h, .of_eq rfl rfl, rfl, by simp⟩
  | cons parent others =>
    obtain ⟨p, n⟩ := parent
    obtain ⟨low, done, rest, hstack, layer, link, layers⟩ := h.layers.split
    obtain ⟨own, done', rest', hrest, parentLayer, -, -⟩ := layers.split
    have hp : p ∈ rest := by simp [hrest]
    have hnodup := h.nodup
    rw [hstack] at hnodup
    have hnodup' := List.nodup_cons.mp (List.nodup_append.mp hnodup).2.1
    have hne : p ≠ v := by
      rintro rfl
      exact hnodup'.1 hp
    have hsize : p < w.low.size := (Array.getElem?_eq_some_iff.mp parentLayer.noted).1
    have hlow : ∀ x, (w.lowered p (min own low)).low[x]? =
        if p = x then some (min own low) else w.low[x]? := getElem?_written hsize _
    have hback : low < own → ∃ y ∈ rest, w.Index y low ∧ g.Reach p y := by
      intro hlt
      -- the vertex with index `low` was visited before `p`, so it lies below `v`
      obtain ⟨y, hy, hindex, hreach⟩ := layer.least
      obtain ⟨i, hi, -⟩ := layer.low_le
      obtain ⟨j, hj, hle⟩ := parentLayer.low_le
      have hji : j < i := h.index_lt_of_rest hstack hi hp hj
      have hmem : y ∈ rest := h.mem_rest_of_index_lt hstack hi (hstack ▸ hy) hindex (by omega)
      exact ⟨y, hmem, hindex, .head (link (p, n) rfl) hreach⟩
    refine ⟨w.lowered p (min own low), ?_, ?_, .of_eq rfl rfl, ?_, ?_⟩
    · rw [inherit?, layer.noted]
      exact lower?_eq_some.mpr ⟨own, parentLayer.noted, rfl⟩
    · refine ⟨h.toKept.lowered p _, ?_⟩
      show Layers g _ _ w.stack
      rw [hstack]
      refine .cons (layer.later (.of_eq rfl rfl) ?_) link ?_
      · rw [hlow, if_neg hne]
      · exact layers.lower hnodup'.2 parentLayer.noted hback
    · rw [hlow, if_neg hne]
    · intro parent hparent low' own' hlow' hown'
      obtain rfl := Option.some.inj hparent
      rw [hlow, if_neg hne, layer.noted] at hlow'
      rw [hlow, if_pos rfl] at hown'
      obtain rfl := Option.some.inj hlow'
      obtain rfl := Option.some.inj hown'
      exact Nat.min_le_right own low

end Sound

/-- What a frame has done is done for the frame below, if it has a way back below itself. -/
theorem Layer.merge {p n own : Nat} {done' rest' : List Nat}
    (h : Layer g w v next low done (done' ++ p :: rest')) (hp : Layer g w p n own done' rest')
    (hv : g.successors[v]? = some targets) (hend : targets[next]? = none) (hlink : g.Edge p v)
    (hle : own ≤ low) (hback : ∃ y ∈ done' ++ p :: rest', g.Reach v y) :
    Layer g w p n own (done ++ v :: done') rest' where
  noted := hp.noted
  low_le := hp.low_le
  back x hx := by
    rw [List.append_assoc, List.cons_append, List.append_cons] at hx
    rcases List.mem_append.mp hx with hx | hx
    · obtain ⟨y, hy, hreach⟩ := hback
      have hmem : x ∈ done ++ v :: (done' ++ p :: rest') := by
        rw [List.append_cons]
        exact List.mem_append_left _ hx
      exact (h.back x hmem).trans (hreach.trans (hp.back y hy))
    · exact hp.back x hx
  forth x hx := by
    rcases List.mem_append.mp hx with hx | hx
    · exact .head hlink (h.forth x hx)
    · rcases List.mem_cons.mp hx with rfl | hx
      · exact .single hlink
      · exact hp.forth x hx
  least := by
    obtain ⟨y, hy, hindex, hreach⟩ := hp.least
    refine ⟨y, ?_, hindex, hreach⟩
    rw [List.append_assoc, List.cons_append]
    exact List.mem_append_right _ (.tail _ hy)
  known x hx u hedge := by
    rcases List.mem_append.mp hx with hx | hx
    · exact (h.known x hx u hedge).mono hle
    · rcases List.mem_cons.mp hx with rfl | hx
      · refine (h.looked targets hv u ?_).mono hle
        rw [List.take_of_length_le (List.getElem?_eq_none_iff.mp hend)]
        exact (Graph.edge_iff hv).mp hedge
      · exact hp.known x hx u hedge
  looked := hp.looked

namespace Sound

/-- `v` has a way back to something below itself: its layer becomes a part of the one below. -/
theorem merge (h : Sound g ((v, next) :: below) w) (hv : g.successors[v]? = some targets)
    (hend : targets[next]? = none) (hlow : w.low[v]? = some low) (hi : w.Index v i) (hne : low ≠ i)
    (hbelow : ∀ parent ∈ below.head?, ∀ own, w.low[parent.1]? = some own → own ≤ low) :
    Sound g below w where
  toKept := h.toKept
  layers := by
    obtain ⟨low', done, rest, hstack, layer, link, layers⟩ := h.layers.split
    obtain rfl := layer.low_eq hlow
    obtain ⟨y, hy, hindex, hreach⟩ := layer.least
    have hlt : low' < i := by
      obtain ⟨j, hj, hle⟩ := layer.low_le
      obtain rfl := hj.unique hi
      omega
    have hmem : y ∈ rest := h.mem_rest_of_index_lt hstack hi (hstack ▸ hy) hindex hlt
    cases below with
    | nil =>
      rw [layers.eq_nil] at hmem
      exact absurd hmem (by simp)
    | cons parent others =>
      obtain ⟨p, n⟩ := parent
      obtain ⟨own, done', rest', rfl, parentLayer, link', layers'⟩ := layers.split
      have hle := hbelow (p, n) rfl own parentLayer.noted
      have hmerged := layer.merge parentLayer hv hend (link (p, n) rfl) hle ⟨y, hmem, hreach⟩
      have hcut : w.stack = (done ++ v :: done') ++ p :: rest' := by
        rw [hstack, List.append_assoc, List.cons_append]
      exact hcut ▸ .cons hmerged link' layers'

end Sound

/-! ## A component ends -/

theorem unstack?_cons {number member : Nat} {onStack : Array Bool} {component : Array (Option Nat)}
    (hon : member < onStack.size) (hcomponent : member < component.size) :
    unstack? number v (member :: rest) onStack component =
      if member = v then
        some (rest, onStack.setIfInBounds member false, component.setIfInBounds member (some number))
      else unstack? number v rest (onStack.setIfInBounds member false)
        (component.setIfInBounds member (some number)) := by
  rw [unstack?, write?_eq_some.mpr ⟨hon, rfl⟩]
  simp only [Option.bind_eq_bind, Option.bind_some]
  rw [write?_eq_some.mpr ⟨hcomponent, rfl⟩]
  rfl

theorem ite_mem_cons {α : Type} (a b : α) (member x : Nat) (l : List Nat) :
    (if x ∈ member :: l then a else b) = if x ∈ l then a else if member = x then a else b := by
  by_cases hx : x ∈ l
  · rw [if_pos hx, if_pos (.tail _ hx)]
  · simp [hx, eq_comm]

/-- Everything down to `v` is taken from the stack, and gets the number. -/
theorem unstack_spec (number : Nat) (rest : List Nat) {size : Nat} : ∀ {done : List Nat}
    {onStack : Array Bool} {component : Array (Option Nat)}, onStack.size = size →
    component.size = size → v ∉ done → (∀ x ∈ done ++ [v], x < size) → ∃ onStack' component',
      unstack? number v (done ++ v :: rest) onStack component = some (rest, onStack', component') ∧
      onStack'.size = size ∧ component'.size = size ∧
      (∀ x, onStack'[x]? = if x ∈ done ++ [v] then some false else onStack[x]?) ∧
      ∀ x, component'[x]? = if x ∈ done ++ [v] then some (some number) else component[x]? := by
  intro done
  induction done with
  | nil =>
    intro onStack component hon hcomponent _ hlt
    have hv : v < size := hlt v (by simp)
    refine ⟨onStack.setIfInBounds v false, component.setIfInBounds v (some number), ?_, ?_, ?_, ?_, ?_⟩
    · rw [List.nil_append, unstack?_cons (hon ▸ hv) (hcomponent ▸ hv), if_pos rfl]
    · simpa using hon
    · simpa using hcomponent
    · intro x
      rw [getElem?_written (hon ▸ hv)]
      simp [eq_comm]
    · intro x
      rw [getElem?_written (hcomponent ▸ hv)]
      simp [eq_comm]
  | cons member done ih =>
    intro onStack component hon hcomponent hnew hlt
    have hmember : member < size := hlt member (by simp)
    rw [List.mem_cons, not_or] at hnew
    obtain ⟨hne, hnew⟩ := hnew
    have hon' : (onStack.setIfInBounds member false).size = size := by simpa using hon
    have hcomponent' : (component.setIfInBounds member (some number)).size = size := by
      simpa using hcomponent
    obtain ⟨onStack', component', hrun, honSize, hcomponentSize, honStack, hcomponents⟩ :=
      ih hon' hcomponent' hnew fun x hx => hlt x (.tail _ hx)
    refine ⟨onStack', component', ?_, honSize, hcomponentSize, fun x => ?_, fun x => ?_⟩
    · rw [List.cons_append, unstack?_cons (hon ▸ hmember) (hcomponent ▸ hmember),
        if_neg (Ne.symm hne)]
      exact hrun
    · rw [honStack, getElem?_written (hon ▸ hmember), List.cons_append, ite_mem_cons]
    · rw [hcomponents, getElem?_written (hcomponent ▸ hmember), List.cons_append, ite_mem_cons]

section Group

variable (h : Kept g w) (hstack : w.stack = done ++ v :: rest) (hi : w.Index v i)
  (layer : Layer g w v next i done rest) (hv : g.successors[v]? = some targets)
  (hend : targets[next]? = none)
include layer

/-- From each member of a group one comes to each other, over `v`. -/
theorem Layer.reach {x y : Nat} (hx : x ∈ done ++ [v]) (hy : y ∈ done ++ [v]) : g.Reach x y := by
  have hxv : g.Reach x v := layer.back x (by
    rw [List.append_cons]
    exact List.mem_append_left _ hx)
  refine hxv.trans ?_
  rcases List.mem_append.mp hy with hy | hy
  · exact layer.forth y hy
  · rw [List.mem_singleton.mp hy]

include h hstack hi hv hend

/-- **A group that notes nothing below itself is closed off**: its edges lead to members, and to
components that have ended. -/
theorem Layer.closedOff {x : Nat} (hx : x ∈ done ++ [v]) (hedge : g.Edge x u) :
    u ∈ done ++ [v] ∨ w.Numbered u := by
  have hknown : w.Known i u := by
    rcases List.mem_append.mp hx with hx | hx
    · exact layer.known x hx u hedge
    · rw [List.mem_singleton.mp hx, Graph.edge_iff hv] at hedge
      refine layer.looked targets hv u ?_
      rwa [List.take_of_length_le (List.getElem?_eq_none_iff.mp hend)]
  obtain ⟨j, hj, hle⟩ := hknown
  rcases (h.visited u).mp ⟨j, hj⟩ with hmem | hnumbered
  · have hbelow : u ∉ rest := fun hrest =>
      absurd (h.index_lt_of_rest hstack hi hrest hj) (Nat.not_lt.mpr (hle hmem))
    rw [hstack, List.append_cons] at hmem
    exact .inl ((List.mem_append.mp hmem).resolve_right hbelow)
  · exact .inr hnumbered

end Group

/-- What the end of a component leaves: its members have left the stack for the next number. -/
structure Released (w : Walk) (group rest : List Nat) (w' : Walk) : Prop where
  index : w'.index = w.index
  low : w'.low = w.low
  nextIndex : w'.nextIndex = w.nextIndex
  stack : w'.stack = rest
  nextComponent : w'.nextComponent = w.nextComponent + 1
  onStackSize : w'.onStack.size = w.onStack.size
  componentSize : w'.component.size = w.component.size
  onStack : ∀ x, w'.onStack[x]? = if x ∈ group then some false else w.onStack[x]?
  component : ∀ x, w'.component[x]? =
    if x ∈ group then some (some w.nextComponent) else w.component[x]?

theorem Kept.release (h : Kept g w) (hstack : w.stack = done ++ v :: rest) :
    ∃ w', w.release? v = some w' ∧ Released w (done ++ [v]) rest w' := by
  have hnodup := h.nodup
  rw [hstack] at hnodup
  have hnew : v ∉ done := fun hmem => (List.nodup_append.mp hnodup).2.2 v hmem v (.head _) rfl
  have hlt : ∀ x ∈ done ++ [v], x < g.size := by
    intro x hx
    refine h.lt_of_mem ?_
    rw [hstack, List.append_cons]
    exact List.mem_append_left _ hx
  obtain ⟨onStack, component, hrun, honSize, hcomponentSize, honStack, hcomponents⟩ :=
    unstack_spec w.nextComponent rest h.sizes.onStack h.sizes.component hnew hlt
  rw [← hstack] at hrun
  exact ⟨_, release?_eq_some.mpr ⟨rest, onStack, component, hrun, rfl⟩, rfl, rfl, rfl, rfl, rfl,
    honSize.trans h.sizes.onStack.symm, hcomponentSize.trans h.sizes.component.symm, honStack,
    hcomponents⟩

namespace Released

variable {group : List Nat} (h : Released w group rest w')
include h

theorem number_iff {x c : Nat} :
    w'.Number x c ↔ x ∈ group ∧ c = w.nextComponent ∨ x ∉ group ∧ w.Number x c := by
  unfold Number
  rw [h.component x]
  by_cases hx : x ∈ group <;> simp [hx, eq_comm]

theorem index_iff {x i : Nat} : w'.Index x i ↔ w.Index x i := by
  rw [Index, Index, h.index]

/-- The new component is closed off like those before it. -/
theorem ended (hkept : Kept g w) (hne : v ∈ group) (hgroup : ∀ x ∈ group, x ∈ w.stack)
    (hreach : ∀ x ∈ group, ∀ y ∈ group, g.Reach x y)
    (hclosed : ∀ x ∈ group, ∀ u, g.Edge x u → u ∈ group ∨ w.Numbered u) : Ended g w' where
  lt x c hc := by
    rw [h.nextComponent]
    rcases h.number_iff.mp hc with ⟨-, rfl⟩ | ⟨-, hc⟩
    · exact Nat.lt_succ_self _
    · exact Nat.lt_succ_of_lt (hkept.ended.lt x c hc)
  used c hc := by
    rw [h.nextComponent] at hc
    rcases Nat.lt_succ_iff_lt_or_eq.mp hc with hc | rfl
    · obtain ⟨x, hx⟩ := hkept.ended.used c hc
      exact ⟨x, h.number_iff.mpr (.inr ⟨fun hmem => hkept.apart x (hgroup x hmem) ⟨c, hx⟩, hx⟩)⟩
    · exact ⟨v, h.number_iff.mpr (.inl ⟨hne, rfl⟩)⟩
  falls x c hc u hedge := by
    have hold : ∀ d, w.Number u d → w'.Number u d := fun d hd =>
      h.number_iff.mpr (.inr ⟨fun hmem => hkept.apart u (hgroup u hmem) ⟨d, hd⟩, hd⟩)
    rcases h.number_iff.mp hc with ⟨hx, rfl⟩ | ⟨-, hc⟩
    · rcases hclosed x hx u hedge with hu | ⟨d, hd⟩
      · exact ⟨w.nextComponent, Nat.le_refl _, h.number_iff.mpr (.inl ⟨hu, rfl⟩)⟩
      · exact ⟨d, Nat.le_of_lt (hkept.ended.lt u d hd), hold d hd⟩
    · obtain ⟨d, hle, hd⟩ := hkept.ended.falls x c hc u hedge
      exact ⟨d, hle, hold d hd⟩
  same x y c hx hy := by
    rcases h.number_iff.mp hx with ⟨hxg, hc⟩ | ⟨-, hxc⟩
    · rcases h.number_iff.mp hy with ⟨hyg, -⟩ | ⟨-, hyc⟩
      · exact hreach x hxg y hyg
      · exact absurd (hkept.ended.lt y c hyc) (Nat.not_lt.mpr (Nat.le_of_eq hc.symm))
    · rcases h.number_iff.mp hy with ⟨-, hc⟩ | ⟨-, hyc⟩
      · exact absurd (hkept.ended.lt x c hxc) (Nat.not_lt.mpr (Nat.le_of_eq hc.symm))
      · exact hkept.ended.same x y c hxc hyc

theorem kept (hkept : Kept g w) (hstack : w.stack = group ++ rest) (hended : Ended g w') :
    Kept g w' where
  sizes :=
    { index := h.index ▸ hkept.sizes.index
      low := h.low ▸ hkept.sizes.low
      onStack := h.onStackSize.trans hkept.sizes.onStack
      component := h.componentSize.trans hkept.sizes.component }
  onStack x := by
    rw [h.onStack x, h.stack]
    by_cases hx : x ∈ group
    · simp [hx, hkept.not_mem_of_append hstack hx]
    · rw [if_neg hx, hkept.onStack x, hstack, List.mem_append, or_iff_right hx]
  index_lt x i hi := h.nextIndex ▸ hkept.index_lt x i (h.index_iff.mp hi)
  descending := by
    have hpairwise := hkept.descending
    rw [hstack] at hpairwise
    rw [h.stack]
    refine (List.pairwise_append.mp hpairwise).2.1.imp fun hlt i j hi hj => ?_
    exact hlt i j (h.index_iff.mp hi) (h.index_iff.mp hj)
  visited x := by
    have hvisited : w'.Visited x ↔ w.Visited x := exists_congr fun i => h.index_iff
    have hnumbered : w'.Numbered x ↔ x ∈ group ∨ x ∉ group ∧ w.Numbered x := by
      simp [Numbered, h.number_iff, exists_or]
    rw [hvisited, hkept.visited x, hnumbered, h.stack, hstack, List.mem_append]
    by_cases hx : x ∈ group <;> simp [hx]
  apart x hx := by
    rw [h.stack] at hx
    intro hnumbered
    obtain ⟨c, hc⟩ := hnumbered
    have hmem : x ∈ w.stack := by
      rw [hstack]
      exact List.mem_append_right _ hx
    rcases h.number_iff.mp hc with ⟨hgroup, -⟩ | ⟨-, hc⟩
    · exact hkept.not_mem_of_append hstack hgroup hx
    · exact hkept.apart x hmem ⟨c, hc⟩
  ended := hended

theorem later (hstack : w.stack = group ++ rest) : Later w w' where
  index x i hi := h.index_iff.mpr hi
  stack x hx _ := by
    rw [h.stack] at hx
    rw [hstack]
    exact List.mem_append_right _ hx

end Released

namespace Sound

/-- `v` has no way back below itself: its component ends. -/
theorem release (h : Sound g ((v, next) :: below) w) (hv : g.successors[v]? = some targets)
    (hend : targets[next]? = none) (hlow : w.low[v]? = some i) (hi : w.Index v i) :
    ∃ w', w.release? v = some w' ∧ Sound g below w' ∧ Later w w' := by
  obtain ⟨low, done, rest, hstack, layer, -, layers⟩ := h.layers.split
  obtain rfl := layer.low_eq hlow
  obtain ⟨w', hrun, hreleased⟩ := h.toKept.release hstack
  have hcut : w.stack = (done ++ [v]) ++ rest := by rw [hstack, List.append_cons]
  have hgroup : ∀ x ∈ done ++ [v], x ∈ w.stack := fun x hx => hcut ▸ List.mem_append_left _ hx
  have hended := hreleased.ended h.toKept (List.mem_append_right done (.head _)) hgroup
    (fun x hx y hy => layer.reach hx hy)
    fun x hx u hedge => layer.closedOff h.toKept hstack hi hv hend hx hedge
  refine ⟨w', hrun, ⟨hreleased.kept h.toKept hcut hended, ?_⟩, hreleased.later hcut⟩
  rw [hreleased.stack]
  exact layers.later (hreleased.later hcut) fun x _ => by rw [hreleased.low]

/-- **A frame whose edges were all looked at is left.** -/
theorem leave (h : Sound g ((v, next) :: below) w) (hv : g.successors[v]? = some targets)
    (hend : targets[next]? = none) :
    ∃ w', w.leave? v below = some w' ∧ Sound g below w' ∧ Later w w' := by
  obtain ⟨w₁, hinherit, hsound, hlater, -, hbelow⟩ := h.inherit
  obtain ⟨low, i, hlow, hi, -, -⟩ := hsound.exists_low
  by_cases heq : low = i
  · subst heq
    obtain ⟨w', hrun, hsound', hlater'⟩ := hsound.release hv hend hlow hi
    refine ⟨w', leave?_eq_some.mpr ⟨w₁, hinherit, low, hlow, some low, hi, ?_⟩, hsound', ?_⟩
    · rw [if_pos rfl, hrun]
    · exact hlater.trans hlater'
  · refine ⟨w₁, leave?_eq_some.mpr ⟨w₁, hinherit, low, hlow, some i, hi, ?_⟩, ?_, hlater⟩
    · rw [if_neg (by simpa using heq)]
    · exact hsound.merge hv hend hlow hi heq fun parent hparent own hown =>
        hbelow parent hparent low own hlow hown

end Sound

end CaretAutomata

import CaretAutomata.Graph.Basic

/-! # Strongly connected components

Two vertices lie in one component when each can be reached from the other. The walk is Tarjan's. It
numbers the vertices in the order in which it comes to them and keeps those whose component is not
known yet on a stack; for each vertex that it is still busy with it keeps the least of the numbers
that it saw a way back to. A vertex that it is done with and that saw no way back to before itself
ends a component: all that was put on the stack since then.

The walk does not recurse. Its frames are a list with the innermost in front, each a vertex with the
position of the next edge to look at. Whatever it looks up by position may be missing, and then
there is no answer. -/

namespace CaretAutomata

/-- How far a walk has come. A vertex without an index was not visited, one without a component has
none yet. -/
structure Walk where
  index : Array (Option Nat)
  low : Array Nat
  onStack : Array Bool
  component : Array (Option Nat)
  stack : List Nat := []
  nextIndex : Nat := 0
  nextComponent : Nat := 0
  deriving Repr, Inhabited

/-- The frames of a walk, the innermost in front: a vertex, and the position of its next edge. -/
abbrev Frames := List (Nat × Nat)

namespace Walk

def start (size : Nat) : Walk where
  index := .replicate size none
  low := .replicate size 0
  onStack := .replicate size false
  component := .replicate size none

/-- Visits a vertex: it gets the next index and goes on the stack. -/
def enter? (w : Walk) (v : Nat) : Option Walk := do
  let { index, low, onStack, component, stack, nextIndex, nextComponent } := w
  let index ← write? index v (some nextIndex)
  let low ← write? low v nextIndex
  let onStack ← write? onStack v true
  return { index, low, onStack, component, stack := v :: stack, nextIndex := nextIndex + 1,
           nextComponent }

/-- Notes that `v` has a way back to the vertex with index `i`. -/
def lower? (w : Walk) (v i : Nat) : Option Walk := do
  let { index, low, onStack, component, stack, nextIndex, nextComponent } := w
  let own ← low[v]?
  let low ← write? low v (min own i)
  return { index, low, onStack, component, stack, nextIndex, nextComponent }

/-- Takes members from a stack, down to `v`, and gives them the number of their component. -/
def unstack? (number v : Nat) : (stack : List Nat) → (onStack : Array Bool) →
    (component : Array (Option Nat)) → Option (List Nat × Array Bool × Array (Option Nat))
  | [], onStack, component => some ([], onStack, component)
  | member :: rest, onStack, component => do
    let onStack ← write? onStack member false
    let component ← write? component member (some number)
    if member = v then some (rest, onStack, component)
    else unstack? number v rest onStack component

/-- Ends the component that the walk entered at `v`. -/
def release? (w : Walk) (v : Nat) : Option Walk := do
  let { index, low, onStack, component, stack, nextIndex, nextComponent } := w
  let (stack, onStack, component) ← unstack? nextComponent v stack onStack component
  return { index, low, onStack, component, stack, nextIndex, nextComponent := nextComponent + 1 }

/-- What `v` has a way back to, the vertex that led to it has a way back to as well. -/
def inherit? (w : Walk) (v : Nat) : (below : Frames) → Option Walk
  | [] => some w
  | (parent, _) :: _ => do w.lower? parent (← w.low[v]?)

/-- Goes back from `v`, whose edges were all looked at, to the frames below. -/
def leave? (w : Walk) (v : Nat) (below : Frames) : Option Walk := do
  let w ← w.inherit? v below
  if some (← w.low[v]?) = (← w.index[v]?) then w.release? v else some w

/-- A vertex was not visited. -/
def ahead (w : Walk) (v : Nat) : Bool := w.index[v]? == some none

variable {w w' : Walk} {v i : Nat} {below : Frames}

/-- The walk that has visited `v`. -/
def entered (w : Walk) (v : Nat) : Walk :=
  { w with
    index := w.index.setIfInBounds v (some w.nextIndex)
    low := w.low.setIfInBounds v w.nextIndex
    onStack := w.onStack.setIfInBounds v true
    stack := v :: w.stack
    nextIndex := w.nextIndex + 1 }

/-- The walk that has noted `low` for `v`. -/
def lowered (w : Walk) (v low : Nat) : Walk := { w with low := w.low.setIfInBounds v low }

theorem enter?_eq_some : w.enter? v = some w' ↔
    (v < w.index.size ∧ v < w.low.size ∧ v < w.onStack.size) ∧ w.entered v = w' := by
  simp [enter?, entered, Option.bind_eq_some_iff, write?_eq_some, and_assoc]

theorem lower?_eq_some : w.lower? v i = some w' ↔
    ∃ own, w.low[v]? = some own ∧ w.lowered v (min own i) = w' := by
  simp only [lower?, Option.bind_eq_bind, Option.bind_eq_some_iff, write?_eq_some]
  constructor
  · intro h
    obtain ⟨own, hown, low, ⟨-, rfl⟩, h⟩ := h
    exact ⟨own, hown, Option.some.inj h⟩
  · intro h
    obtain ⟨own, hown, h⟩ := h
    obtain ⟨hlt, -⟩ := Array.getElem?_eq_some_iff.mp hown
    exact ⟨own, hown, _, ⟨hlt, rfl⟩, congrArg some h⟩

theorem release?_eq_some : w.release? v = some w' ↔ ∃ stack onStack component,
    unstack? w.nextComponent v w.stack w.onStack w.component = some (stack, onStack, component) ∧
    { w with stack, onStack, component, nextComponent := w.nextComponent + 1 } = w' := by
  simp [release?, Option.bind_eq_some_iff]

theorem leave?_eq_some : w.leave? v below = some w' ↔ ∃ w₁, w.inherit? v below = some w₁ ∧
    ∃ low, w₁.low[v]? = some low ∧ ∃ entry, w₁.index[v]? = some entry ∧
    (if some low = entry then w₁.release? v else some w₁) = some w' := by
  simp [leave?, Option.bind_eq_some_iff]

/-! Only a visit changes the indices. -/

theorem index_lower? (h : w.lower? v i = some w') : w'.index = w.index := by
  obtain ⟨own, -, rfl⟩ := lower?_eq_some.mp h
  rfl

theorem index_inherit? (h : w.inherit? v below = some w') : w'.index = w.index := by
  cases below with
  | nil => cases h; rfl
  | cons frame rest =>
    obtain ⟨low, -, h⟩ := Option.bind_eq_some_iff.mp h
    exact index_lower? h

theorem index_leave? (h : w.leave? v below = some w') : w'.index = w.index := by
  obtain ⟨w₁, hinherit, low, -, entry, -, h⟩ := leave?_eq_some.mp h
  rw [← index_inherit? hinherit]
  split at h
  · obtain ⟨stack, onStack, component, -, rfl⟩ := release?_eq_some.mp h
    rfl
  · cases h
    rfl

theorem ahead_eq (h : w'.index = w.index) : w'.ahead = w.ahead := by
  unfold ahead
  rw [h]

theorem ahead_enter? (h : w.enter? v = some w') (u : Nat) : w'.ahead u = (w.ahead u && u != v) := by
  obtain ⟨⟨hv, -, -⟩, rfl⟩ := enter?_eq_some.mp h
  unfold ahead entered
  rw [Array.getElem?_setIfInBounds]
  by_cases hu : v = u
  · subst hu
    simp [hv]
  · simp [hu, Ne.symm hu]

end Walk

namespace Graph

/-- Looks at the next edge of `v`, or goes back from `v` if there is none. -/
def step? (g : Graph) (v next : Nat) (below : Frames) (w : Walk) : Option (Frames × Walk) := do
  let targets ← g.successors[v]?
  match targets[next]? with
  | some target =>
    match ← w.index[target]? with
    | none => return ((target, 0) :: (v, next + 1) :: below, ← w.enter? target)
    | some i =>
      if ← w.onStack[target]? then return ((v, next + 1) :: below, ← w.lower? v i)
      else return ((v, next + 1) :: below, w)
  | none => return (below, ← w.leave? v below)

/-- The turns of the loop that can make up a step. -/
inductive Turn (g : Graph) (v next : Nat) (below : Frames) (w : Walk) : Frames → Walk → Prop where
  /-- The next edge leads to a vertex that was not visited. -/
  | enter {target : Nat} {targets : List Nat} {w' : Walk} (hv : g.successors[v]? = some targets)
      (htarget : targets[next]? = some target) (hnew : w.index[target]? = some none)
      (h : w.enter? target = some w') :
      Turn g v next below w ((target, 0) :: (v, next + 1) :: below) w'
  /-- It leads to a vertex that still waits for its component. -/
  | lower {target i : Nat} {targets : List Nat} {w' : Walk} (hv : g.successors[v]? = some targets)
      (htarget : targets[next]? = some target) (hindex : w.index[target]? = some (some i))
      (hon : w.onStack[target]? = some true) (h : w.lower? v i = some w') :
      Turn g v next below w ((v, next + 1) :: below) w'
  /-- It leads to a component that is known. -/
  | pass {target i : Nat} {targets : List Nat} (hv : g.successors[v]? = some targets)
      (htarget : targets[next]? = some target) (hindex : w.index[target]? = some (some i))
      (hoff : w.onStack[target]? = some false) : Turn g v next below w ((v, next + 1) :: below) w
  /-- There is no next edge. -/
  | leave {targets : List Nat} {w' : Walk} (hv : g.successors[v]? = some targets)
      (hnone : targets[next]? = none) (h : w.leave? v below = some w') :
      Turn g v next below w below w'

open Walk

variable {g : Graph} {v next : Nat} {below frames : Frames} {w w' : Walk}

theorem turn_of_step? (h : g.step? v next below w = some (frames, w')) :
    Turn g v next below w frames w' := by
  simp only [step?, Option.bind_eq_bind, Option.pure_def] at h
  obtain ⟨targets, hv, h⟩ := Option.bind_eq_some_iff.mp h
  cases htarget : targets[next]? with
  | none =>
    simp only [htarget] at h
    obtain ⟨w₁, hleave, h⟩ := Option.bind_eq_some_iff.mp h
    cases h
    exact .leave hv htarget hleave
  | some target =>
    simp only [htarget] at h
    obtain ⟨entry, hentry, h⟩ := Option.bind_eq_some_iff.mp h
    cases entry with
    | none =>
      obtain ⟨w₁, henter, h⟩ := Option.bind_eq_some_iff.mp h
      cases h
      exact .enter hv htarget hentry henter
    | some i =>
      obtain ⟨waits, hwaits, h⟩ := Option.bind_eq_some_iff.mp h
      cases waits with
      | true =>
        obtain ⟨w₁, hlower, h⟩ := Option.bind_eq_some_iff.mp h
        cases h
        exact .lower hv htarget hentry hwaits hlower
      | false =>
        cases h
        exact .pass hv htarget hentry hwaits

/-- The turns that the frames still take. -/
def frameTurns (g : Graph) : Frames → Nat
  | [] => 0
  | (v, next) :: below => g.turns v next + g.frameTurns below

/-- How many steps the walk still makes, at most. -/
def walkTurns (g : Graph) (frames : Frames) (w : Walk) : Nat :=
  g.turnsAhead w.ahead + g.frameTurns frames

/-- A vertex that is visited pays for the frame that it gets. -/
theorem walkTurns_lt (h : Turn g v next below w frames w') :
    g.walkTurns frames w' < g.walkTurns ((v, next) :: below) w := by
  -- looking at an edge makes one turn less for the frame
  have hnext : ∀ {targets : List Nat} {target : Nat}, g.successors[v]? = some targets →
      targets[next]? = some target → g.turns v (next + 1) < g.turns v next := by
    intro targets target hv htarget
    obtain ⟨hlt, -⟩ := List.getElem?_eq_some_iff.mp htarget
    simp only [turns, hv]
    omega
  cases h with
  | @enter target targets w' hv htarget hnew h =>
    have hahead : g.turnsAhead w'.ahead + g.turns target 0 ≤ g.turnsAhead w.ahead := by
      apply turnsAhead_add_le
      · intro u hu
        rw [ahead_enter? h, Bool.and_eq_true] at hu
        exact hu.1
      · rw [Walk.ahead, hnew]
        rfl
      · simp [ahead_enter? h]
    have := hnext hv htarget
    simp only [walkTurns, frameTurns]
    omega
  | lower hv htarget _ _ h =>
    have := hnext hv htarget
    simp only [walkTurns, ahead_eq (index_lower? h), frameTurns]
    omega
  | pass hv htarget _ _ =>
    have := hnext hv htarget
    simp only [walkTurns, frameTurns]
    omega
  | leave hv _ h =>
    have hturns : 0 < g.turns v next := by
      simp only [turns, hv]
      omega
    simp only [walkTurns, ahead_eq (index_leave? h), frameTurns]
    omega

/-- Goes on until no frame is left. -/
def run? (g : Graph) (frames : Frames) (w : Walk) : Option Walk :=
  match frames with
  | [] => some w
  | (v, next) :: below =>
    match _ : g.step? v next below w with
    | none => none
    | some (frames, w) => g.run? frames w
termination_by g.walkTurns frames w
decreasing_by exact walkTurns_lt (turn_of_step? ‹_›)

/-- Visits a vertex and all that can be reached from it, unless that was done before. -/
def visitFrom? (g : Graph) (w : Walk) (root : Nat) : Option Walk := do
  match ← w.index[root]? with
  | some _ => return w
  | none => g.run? [(root, 0)] (← w.enter? root)

/-- The whole walk, from every vertex. -/
def walk? (g : Graph) : Option Walk := (List.range g.size).foldlM g.visitFrom? (.start g.size)

/-- The number of the component of every vertex. Components are numbered as they end, each before
those that lead into it. There is no answer if an edge leads to something that is no vertex. -/
def componentNumbers? (g : Graph) : Option (Array Nat) := do
  let w ← g.walk?
  return (← w.component.toList.mapM id).toArray

/-- The component of a vertex is not closed if an edge leads from there to another one. -/
def leaveOpen? (numbers : Array Nat) (closed : Array Bool) (edge : Nat × Nat) :
    Option (Array Bool) := do
  let source ← numbers[edge.1]?
  let target ← numbers[edge.2]?
  if source = target then return closed else write? closed source false

/-- One more than the largest number. -/
def componentCount (numbers : Array Nat) : Nat :=
  numbers.foldl (fun count number => max count (number + 1)) 0

/-- Whether no edge leaves a component, for every component. -/
def closedComponents? (g : Graph) (numbers : Array Nat) : Option (Array Bool) :=
  g.edges.foldlM (leaveOpen? numbers) (.replicate (componentCount numbers) true)

end Graph

end CaretAutomata

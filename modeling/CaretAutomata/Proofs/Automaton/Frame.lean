import CaretAutomata.Proofs.Automaton.Construction
import CaretAutomata.Proofs.Extent.Redundancy

/-!
# What wiring changes

The second pass takes its states from the layout that the first one left, one after the other. It
finds each of them where `Extent.wire` counts it to be, so that all it can stumble over is a starter
that is not there. It adds the edges that `wire` lists, in their order, and comes to the exits that
`wire` names (`wire?_eq`).

What the pass changes can therefore be read off these lists. `Automaton.Frame` says it without them,
for a part that stands anywhere between any states.
-/

namespace CaretAutomata

open Arrival (distinct merge)
open Extent (enter loopBack)

/-! ## The second pass adds the edges of the wiring -/

namespace Extent

/-- A part leads back to the repeaters only if it is the last one. -/
theorem wireParts_step (part : Extent) (others : List Extent) (n : Nat) (S R : List StateId) :
    wireParts (part :: others) n S R =
      (part.wire n S (if others.isEmpty then R else [])).andThen fun exits =>
        wireParts others (n + part.leafCount) exits R := by
  cases others with
  | nil => simp [wireParts, Wiring.andThen]
  | cons second others => exact wireParts_cons (List.cons_ne_nil _ _) n S R

/-- A character leads to a leaf of the part. -/
theorem target_of_char_edge_wire {e : Extent} {n : Nat} {S R : List StateId} {p q : StateId}
    {c : Char} (h : ⟨p, .char c, q⟩ ∈ (e.wire n S R).edges) : n ≤ q ∧ q < n + e.leafCount := by
  obtain ⟨letter, hletter⟩ := e.exists_lettered n
  have hwithin := within_positions e n
  rcases ((char_edge_wire e n S R p c q hletter).mp h).1 with ⟨_, hq⟩ | hpq
  · exact hwithin.first q hq
  · exact (hwithin.links p q (.inl hpq)).2

end Extent

namespace Automaton

/-- Adds the edges of a wiring, and gives its exits. -/
def addWiring? (a : Automaton) (w : Wiring) : Option (List StateId × Automaton) :=
  (a.addAll? w.edges).map fun wired => (w.exits, wired)

/-- Edges in front of a wiring can be added first. -/
theorem addWiring?_append (a : Automaton) (first second : List Edge) (exits : List StateId) :
    a.addWiring? ⟨first ++ second, exits⟩ =
      (a.addAll? first).bind fun b => b.addWiring? ⟨second, exits⟩ := by
  rw [addWiring?, addAll?_append, Option.map_bind]
  rfl

/-- What follows a wiring is added behind it. -/
theorem addWiring?_andThen (a : Automaton) (w : Wiring) (rest : List StateId → Wiring) :
    ((a.addWiring? w).bind fun found => found.2.addWiring? (rest found.1)) =
      a.addWiring? (w.andThen rest) := by
  rw [Wiring.andThen, addWiring?_append, addWiring?, Option.bind_map]
  rfl

theorem addWiring?_exits (a : Automaton) (w : Wiring) (f : List StateId → List StateId) :
    ((a.addWiring? w).bind fun found => some (f found.1, found.2)) =
      a.addWiring? ⟨w.edges, f w.exits⟩ := by
  rw [addWiring?, addWiring?, Option.bind_map, Option.map_eq_bind]
  rfl

section Steps

variable {part body : Extent}

theorem wire?_repetition (a : Automaton) (h : body.isLeaf = false) (layout : StateLayout)
    (starters : List StateId) (repeaters : Option (List StateId)) :
    a.wire? (.repetition body) layout starters repeaters = layout.nested.head?.bind fun inner =>
      (a.wire? body inner starters (some (merge (repeaters.getD []) starters))).bind fun found =>
        some (merge found.1 starters, found.2) := by
  cases body with
  | leaf c => exact absurd h (by simp [Extent.isLeaf])
  | concatenation parts => rfl
  | union alternatives => rfl
  | repetition body => rfl

theorem wireParts?_leaf (a : Automaton) (c : Char) (others : List Extent) (state : StateId)
    (states : List StateId) (nested : List StateLayout) (current : List StateId)
    (repeaters : Option (List StateId)) :
    a.wireParts? (.leaf c :: others) (state :: states) nested current repeaters =
      (a.addAll? (enter current c state ++
        loopBack state (if others.isEmpty then repeaters.getD [] else []))).bind fun b =>
          b.wireParts? others states nested [state] repeaters := by
  rw [addAll?_append, Option.bind_assoc]
  cases others with
  | nil => rfl
  | cons second others => rfl

theorem wireParts?_cons (a : Automaton) (h : part.isLeaf = false) (others : List Extent)
    (states : List StateId) (nested : List StateLayout) (current : List StateId)
    (repeaters : Option (List StateId)) :
    a.wireParts? (part :: others) states nested current repeaters = nested.head?.bind fun inner =>
      (a.wire? part inner current (if others.isEmpty then repeaters else none)).bind fun found =>
        found.2.wireParts? others states nested.tail found.1 repeaters := by
  cases part with
  | leaf c => exact absurd h (by simp [Extent.isLeaf])
  | concatenation parts => rfl
  | union alternatives => rfl
  | repetition body => rfl

theorem wireAlternatives?_cons (a : Automaton) (h : part.isLeaf = false) (others : List Extent)
    (nested : List StateLayout) (exits starters : List StateId)
    (repeaters : Option (List StateId)) :
    a.wireAlternatives? (part :: others) nested exits starters repeaters =
      nested.head?.bind fun inner => (a.wire? part inner starters repeaters).bind fun found =>
        found.2.wireAlternatives? others nested.tail (merge exits found.1) starters repeaters := by
  cases part with
  | leaf c => exact absurd h (by simp [Extent.isLeaf])
  | concatenation parts => rfl
  | union alternatives => rfl
  | repetition body => rfl

end Steps

mutual

/-- **The second pass adds the edges of the wiring**, and stops only where one of them starts at a
state that is not there. -/
theorem wire?_eq : ∀ (a : Automaton) {e : Extent} (n : Nat) (S : List StateId)
    (R : Option (List StateId)), e.Assembled →
    a.wire? e (e.layoutAt n) S R = a.addWiring? (e.wire n S (R.getD []))
  | _, .leaf _, _, _, _, h => nomatch h
  | a, .concatenation parts, n, S, R, .concatenation h => wireParts?_eq a n S R h
  | a, .union alternatives, n, S, R, .union h => wireAlternatives?_eq a n [] S R .nil h
  | a, .repetition body, n, S, R, .repetition h => by
    cases hleaf : body.isLeaf with
    | true =>
      obtain ⟨c, rfl⟩ := Extent.exists_leaf_of_isLeaf hleaf
      have hwire : (Extent.repetition (.leaf c)).wire n S (R.getD []) =
          ⟨enter S c n ++ ([⟨n, .char c, n⟩] ++ (loopBack n (R.getD []) ++ [])), merge [n] S⟩ := by
        rw [List.append_nil]
        rfl
      rw [hwire, addWiring?_append]
      simp only [addWiring?_append]
      rfl
    | false =>
      have hbody := wire?_eq a n S (some (merge (R.getD []) S)) (h hleaf)
      rw [Extent.layoutAt, hleaf, wire?_repetition a hleaf, Extent.wire_repetition hleaf]
      show (a.wire? body (body.layoutAt n) S _).bind _ = _
      rw [hbody]
      exact addWiring?_exits a _ fun exits => merge exits S

theorem wireParts?_eq : ∀ (a : Automaton) {es : List Extent} (n : Nat) (S : List StateId)
    (R : Option (List StateId)), (∀ e ∈ es, e.isLeaf = false → e.Assembled) →
    a.wireParts? es (Extent.layoutAll es n).states (Extent.layoutAll es n).nested S R =
      a.addWiring? (Extent.wireParts es n S (R.getD []))
  | a, [], n, S, R, _ => rfl
  | a, e :: others, n, S, R, h => by
    have hothers : ∀ (b : Automaton) (S : List StateId),
        b.wireParts? others (Extent.layoutAll others (n + e.leafCount)).states
            (Extent.layoutAll others (n + e.leafCount)).nested S R =
          b.addWiring? (Extent.wireParts others (n + e.leafCount) S (R.getD [])) :=
      fun b S => wireParts?_eq b _ S R fun other hother => h other (.tail _ hother)
    rw [Extent.wireParts_step]
    cases hleaf : e.isLeaf with
    | true =>
      obtain ⟨c, rfl⟩ := Extent.exists_leaf_of_isLeaf hleaf
      rw [Extent.layoutAll_leaf, wireParts?_leaf, Wiring.andThen, addWiring?_append]
      exact congrArg (Option.bind _) (funext fun b => hothers b [n])
    | false =>
      have hfirst := wire?_eq a n S (if others.isEmpty then R else none) (h e (.head _) hleaf)
      have hlast : (if others.isEmpty then R else none).getD [] =
          if others.isEmpty then R.getD [] else [] := by split <;> rfl
      rw [hlast] at hfirst
      rw [Extent.layoutAll_cons hleaf, wireParts?_cons a hleaf]
      simp only [List.head?_cons, Option.bind_some, List.tail_cons, hothers, hfirst]
      exact addWiring?_andThen a _ fun exits => Extent.wireParts others _ exits (R.getD [])

theorem wireAlternatives?_eq : ∀ (a : Automaton) {es : List Extent} (n : Nat)
    (found S : List StateId) (R : Option (List StateId)), found.Nodup →
    (∀ e ∈ es, e.Assembled) →
    a.wireAlternatives? es (Extent.layoutAll es n).nested found S R =
      a.addWiring? ⟨(Extent.wireAlternatives es n S (R.getD [])).edges,
        distinct (found ++ (Extent.wireAlternatives es n S (R.getD [])).exits)⟩
  | a, [], n, found, S, R, hfound, _ => by
    have hexits : distinct (found ++ []) = found := by
      rw [List.append_nil, Arrival.distinct_of_nodup hfound]
    rw [Extent.wireAlternatives, hexits]
    rfl
  | a, e :: others, n, found, S, R, hfound, h => by
    have hfirst := wire?_eq a n S R (h e (.head _))
    have hothers : ∀ (b : Automaton) (exits : List StateId),
        b.wireAlternatives? others (Extent.layoutAll others (n + e.leafCount)).nested
            (merge found exits) S R = b.addWiring? _ :=
      fun b exits => wireAlternatives?_eq b _ (merge found exits) S R (Arrival.nodup_distinct _)
        fun other hother => h other (.tail _ hother)
    have hleaf := (h e (.head _)).isLeaf
    rw [Extent.layoutAll_cons hleaf, wireAlternatives?_cons a hleaf]
    simp only [List.head?_cons, Option.bind_some, List.tail_cons, hothers, hfirst]
    rw [addWiring?_andThen a _ fun exits => ⟨_, distinct (merge found exits ++ _)⟩]
    simp only [Wiring.andThen, merge, Arrival.distinct_distinct_append, List.append_assoc]
    rfl

end

/-! ## The frame -/

/-- What wiring a part may change, whose states are those of a layout, and where it may come out. -/
structure Frame (before after : Automaton) (own : StateLayout) (starters repeaters : List StateId)
    (exits : List StateId) : Prop where
  size : after.size = before.size
  labels : ∀ id : StateId, after.states[id]?.map State.label = before.states[id]?.map State.label
  marks : ∀ id : StateId,
    after.states[id]?.map State.accepting = before.states[id]?.map State.accepting
  /-- All other states stay as they are. -/
  others : ∀ id : StateId, id ∉ starters → ¬ own.Owns id → after.states[id]? = before.states[id]?
  /-- No edge is lost. -/
  kept : ∀ p symbol q, before.HasEdge p symbol q → after.HasEdge p symbol q
  chars : ∀ p c q, after.HasEdge p (.char c) q → before.HasEdge p (.char c) q ∨
    (p ∈ starters ∨ own.Owns p) ∧ own.Owns q
  silent : ∀ p q, after.HasEdge p .epsilon q → before.HasEdge p .epsilon q ∨
    own.Owns p ∧ (q ∈ repeaters ∨ q ∈ starters ∨ own.Owns q)
  exits : ∀ x ∈ exits, x ∈ starters ∨ own.Owns x

section Frame

variable {e : Extent} {a : Automaton} {n : Nat} {S R : List StateId}

/-- Edges change nothing but the edges of the states that they start at. -/
theorem getElem?_addAll_of_not_source {edges : List Edge} {id : StateId}
    (h : ∀ edge ∈ edges, edge.source ≠ id) : (a.addAll edges).states[id]? = a.states[id]? := by
  have hnone : edges.filter (·.source == id) = [] := by
    rw [List.filter_eq_nil_iff]
    intro edge hedge hsource
    exact h edge hedge (eq_of_beq hsource)
  rw [getElem?_addAll, hnone]
  exact Option.map_id_apply

/-- The edges of a part stay in its frame. -/
theorem frame_addAll (a : Automaton) (e : Extent) (n : Nat) (S R : List StateId) :
    Frame a (a.addAll (e.wire n S R).edges) (e.layoutAt n) S R (e.wire n S R).exits := by
  have hown := e.owns_layoutAt n
  constructor
  case size => exact size_addAll ..
  case labels =>
    intro id
    rw [getElem?_addAll, Option.map_map]
    congr 1
    funext s
    exact s.label_connectAll _
  case marks =>
    intro id
    rw [getElem?_addAll, Option.map_map]
    congr 1
    funext s
    exact s.accepting_connectAll _
  case others =>
    intro id hS hid
    apply getElem?_addAll_of_not_source
    rintro edge hedge rfl
    rcases (Extent.edge_wire hedge).1 with h | h
    · exact hS h
    · exact hid ((hown _).mpr h)
  case kept =>
    intro p symbol q h
    exact hasEdge_addAll.mpr (.inl h)
  case chars =>
    intro p c q h
    refine (hasEdge_addAll.mp h).imp_right fun ⟨_, hedge⟩ => ?_
    rw [hown, hown]
    exact ⟨(Extent.edge_wire hedge).1, Extent.target_of_char_edge_wire hedge⟩
  case silent =>
    intro p q h
    refine (hasEdge_addAll.mp h).imp_right fun ⟨_, hedge⟩ => ?_
    obtain ⟨hp, hq⟩ := e.epsilon_edge_wire n S R p q hedge
    rw [hown, hown]
    refine ⟨hp, ?_⟩
    rcases hq with hq | hq | hq
    · exact .inr (.inl hq)
    · exact .inl hq
    · exact .inr (.inr ⟨hq.1, Nat.lt_trans hq.2 hp.2⟩)
  case exits =>
    intro x hx
    rw [hown]
    exact (Extent.exit_cases hx).symm

/-- A wiring can be added where the starters and the leaves of the part are there. -/
theorem addWiring?_eq (hn : n + e.leafCount ≤ a.size) (hS : ∀ s ∈ S, s < a.size) :
    a.addWiring? (e.wire n S R) =
      some ((e.wire n S R).exits, a.addAll (e.wire n S R).edges) := by
  have hadd : a.addAll? (e.wire n S R).edges = some (a.addAll (e.wire n S R).edges) := by
    apply addAll?_eq
    intro edge hedge
    rcases (Extent.edge_wire hedge).1 with h | h
    · exact hS _ h
    · exact Nat.lt_of_lt_of_le h.2 hn
  rw [addWiring?, hadd]
  rfl

theorem frame_addWiring? {exits : List StateId} {wired : Automaton}
    (h : a.addWiring? (e.wire n S R) = some (exits, wired)) :
    a.Frame wired (e.layoutAt n) S R exits := by
  obtain ⟨b, hb, heq⟩ := Option.map_eq_some_iff.mp h
  obtain ⟨rfl, rfl⟩ := Prod.mk.inj heq
  rw [eq_of_addAll? hb]
  exact frame_addAll a e n S R

end Frame

/-! ## Both passes together -/

/-- What the first pass leaves: a layout of the shape of the tree, and a new state for each leaf. -/
structure Enriched (before : Automaton) (e : Extent) (layout : StateLayout) (after : Automaton) :
    Prop where
  mirrors : layout.Mirrors e
  size : after.size = before.size + e.leafCount
  owns : ∀ id, layout.Owns id ↔ before.size ≤ id ∧ id < after.size
  kept : ∀ id : StateId, id < before.size → after.states[id]? = before.states[id]?
  fresh : ∀ id : StateId, layout.Owns id → after.states[id]? = some { label := defaultLabel id }

section Passes

variable {e : Extent}

theorem enriched_grow (a : Automaton) (he : e.Assembled) :
    a.Enriched e (e.layoutAt a.size) (a.grow e.leafCount) := by
  have hsize : (a.grow e.leafCount).size = a.size + e.leafCount := size_grow ..
  have hown := e.owns_layoutAt a.size
  constructor
  case mirrors => exact Extent.mirrors_layoutAt e a.size he.isLeaf
  case size => exact hsize
  case owns =>
    intro id
    rw [hown, hsize]
  case kept =>
    intro id hid
    rw [getElem?_grow, if_pos hid]
  case fresh =>
    intro id hid
    obtain ⟨hle, hlt⟩ := (hown id).mp hid
    rw [getElem?_grow, if_neg (Nat.not_lt.mpr hle), if_pos hlt]

/-- From the start state alone, the passes build the automaton of the tree. -/
theorem construct?_eq (he : e.Assembled) : construct? e = some (e.wiring.exits, ofExtent e) := by
  have hsize : (blank (1 + e.leafCount)).size = 1 + e.leafCount := Array.size_ofFn
  have hwire : (blank (1 + e.leafCount)).addWiring? e.wiring = some _ :=
    addWiring?_eq (Nat.le_of_eq hsize.symm) fun s hs => by
      rw [List.mem_singleton.mp hs, hsize]
      exact Nat.add_pos_left Nat.one_pos _
  have henrich : single.enrich? e = some (e.layoutAt 1, blank (1 + e.leafCount)) := by
    rw [enrich?_eq single he, single, blank_grow]
    rfl
  rw [construct?, henrich]
  show (blank (1 + e.leafCount)).wire? e (e.layoutAt 1) [0] none = _
  rw [wire?_eq _ 1 [0] none he, ofExtent, ofEdges_eq, Nat.add_comm e.leafCount]
  exact hwire

/-- **Wiring stays in its region and never fails.** A tree that was put together from characters is
laid out by the first pass, whatever states are there already. The second pass then wires every part
of the tree with the layout of that part, from any starters that are there and with any repeaters,
and whatever it wires, it wires inside the frame of the part. From the start state alone, both
passes build the automaton of the tree. -/
theorem wiring_stays_in_frame (he : e.Assembled) :
    (∀ a : Automaton, ∃ layout grown, a.enrich? e = some (layout, grown) ∧
      a.Enriched e layout grown ∧
      ∀ part own, e.HasPart layout part own →
        own.Mirrors part ∧
        (∃ first, ∀ id, own.Owns id ↔ first ≤ id ∧ id < first + part.leafCount) ∧
        ∀ (b : Automaton) (starters : List StateId) (repeaters : Option (List StateId)),
          (grown.size ≤ b.size → (∀ s ∈ starters, s < b.size) →
            ∃ exits wired, b.wire? part own starters repeaters = some (exits, wired)) ∧
          ∀ exits wired, b.wire? part own starters repeaters = some (exits, wired) →
            b.Frame wired own starters (repeaters.getD []) exits) ∧
    construct? e = some (e.wiring.exits, ofExtent e) := by
  refine ⟨fun a => ?_, construct?_eq he⟩
  refine ⟨_, _, enrich?_eq a he, enriched_grow a he, fun part own hpart => ?_⟩
  obtain ⟨hassembled, n, rfl, _, hn⟩ := hpart.layoutAt he rfl
  refine ⟨Extent.mirrors_layoutAt part n hassembled.isLeaf, ⟨n, part.owns_layoutAt n⟩, ?_⟩
  intro b starters repeaters
  rw [wire?_eq b n starters repeaters hassembled]
  constructor
  · intro hb hstarters
    rw [size_grow] at hb
    exact ⟨_, _, addWiring?_eq (Nat.le_trans hn hb) hstarters⟩
  · exact fun exits wired h => frame_addWiring? h

/-- Parts without leaves have layouts too. The repeated character is entered from a starter of our
choice and leads back to a repeater of our choice. -/
theorem wiring_stays_in_frame_emptyParts :
    let part := Extent.repetition (.leaf 'b')
    let e := Extent.concatenation [.leaf 'a', .union [.concatenation [], .union [], part]]
    e.Assembled ∧ ∃ layout grown, single.enrich? e = some (layout, grown) ∧
      e.HasPart layout part ⟨[2], []⟩ ∧ grown.size = 3 ∧
      ∃ wired, grown.wire? part ⟨[2], []⟩ [0] (some [1]) = some ([2, 0], wired) ∧
        grown.Frame wired ⟨[2], []⟩ [0] [1] [2, 0] ∧
        wired.states[1]? = grown.states[1]? ∧ wired.HasEdge 2 .epsilon 1 := by
  intro part e
  have hunion : (Extent.union [.concatenation [], .union [], part]).Assembled := by
    apply Extent.Assembled.union
    intro alternative halternative
    simp only [List.mem_cons, List.not_mem_nil, or_false] at halternative
    obtain rfl | rfl | rfl := halternative
    · exact .concatenation fun _ h => absurd h List.not_mem_nil
    · exact .union fun _ h => absurd h List.not_mem_nil
    · exact .repetition fun h => absurd h (by decide)
  have he : e.Assembled := by
    apply Extent.Assembled.concatenation
    intro child hchild hleaf
    simp only [List.mem_cons, List.not_mem_nil, or_false] at hchild
    obtain rfl | rfl := hchild
    · exact absurd hleaf (by decide)
    · exact hunion
  obtain ⟨hall, -⟩ := wiring_stays_in_frame he
  obtain ⟨layout, grown, henrich, hgrown, hparts⟩ := hall single
  have hlayout : single.enrich? e = some
      (⟨[1], [⟨[], [⟨[], []⟩, ⟨[], []⟩, ⟨[2], []⟩]⟩]⟩, single.allocate.allocate) := rfl
  obtain ⟨rfl, rfl⟩ := Prod.mk.inj (Option.some.inj (henrich.symm.trans hlayout))
  have hpart : e.HasPart ⟨[1], [⟨[], [⟨[], []⟩, ⟨[], []⟩, ⟨[2], []⟩]⟩]⟩ part ⟨[2], []⟩ :=
    .inside (.head _) (.inside (.tail _ (.tail _ (.head _))) .whole)
  obtain ⟨-, -, hwire⟩ := hparts part _ hpart
  have hown : ∀ id, StateLayout.Owns ⟨[2], []⟩ id ↔ 2 ≤ id ∧ id < 3 := part.owns_layoutAt 2
  have hsize : (single.allocate.allocate).size = 3 := rfl
  obtain ⟨hsome, hframe⟩ := hwire (single.allocate.allocate) [0] (some [1])
  obtain ⟨exits, wired, hwired⟩ := hsome (Nat.le_refl _) (by simp [hsize])
  have hin := hframe _ _ hwired
  have h : some (merge [2] [0], _) = some (exits, wired) := hwired
  obtain ⟨hexits, hstates⟩ := Prod.mk.inj (Option.some.inj h)
  have hmerge : merge [2] [0] = [2, 0] := Arrival.distinct_of_nodup (by decide)
  obtain rfl : exits = [2, 0] := hexits.symm.trans hmerge
  refine ⟨he, _, _, hlayout, hpart, hsize, wired, hwired, hin, ?_, ?_⟩
  · apply hin.others 1 (by decide)
    rw [hown]
    decide
  · rw [← hstates]
    exact ⟨_, rfl, by decide⟩

end Passes

end Automaton

end CaretAutomata

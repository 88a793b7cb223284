import CaretAutomata.Proofs.Automaton.Legible

/-!
# Reading a flowchart back

A flowchart cannot be cut into lines at its line ends, since a symbol may be one. But a name holds no
bracket, a node repeats its name between brackets, and a symbol is shown as one character whatever it
is, so the text can be read from the left, and only in one way (`Line.textOf_injective`). What is
read are `Line`s: names and shown symbols, in their order. That they determine the automaton is
another matter, and it is where legibility comes in (`Draws.unique`): the names give the states, with
their marks, the two ends of an edge tell the character `ε` from no character, and the edges of a
state give its transitions.
-/

namespace CaretAutomata

/-! ## Lines -/

namespace Automaton

/-- What a line of a flowchart shows: an edge, by the names of its ends, or a node. -/
inductive Line where
  | edge (source : String) (symbol : Char) (target : String)
  | node (name : String)

namespace Line

def text : Line → String
  | edge source symbol target =>
    "\t" ++ flowchartNode source ++ " -->|" ++ symbol.toString ++ "| " ++ flowchartNode target
  | node name => "\t" ++ flowchartNode name

/-- The names on a line. -/
def names : Line → List String
  | edge source _ target => [source, target]
  | node name => [name]

/-- No name on the line holds a bracket. -/
def Proper (line : Line) : Prop := ∀ name ∈ line.names, '(' ∉ name.toList

end Line

/-- What stands in front of the first bracket is known. -/
theorem append_bracket_inj : ∀ {x y r r' : List Char}, '(' ∉ x → '(' ∉ y →
    x ++ '(' :: r = y ++ '(' :: r' → x = y ∧ r = r'
  | [], [], _, _, _, _, h => ⟨rfl, (List.cons.inj h).2⟩
  | [], c :: y, _, _, _, hy, h => absurd ((List.cons.inj h).1 ▸ List.mem_cons_self) hy
  | c :: x, [], _, _, hx, _, h => absurd ((List.cons.inj h).1 ▸ List.mem_cons_self) hx
  | c :: x, d :: y, _, _, hx, hy, h => by
    obtain ⟨rfl, htail⟩ := List.cons.inj h
    obtain ⟨rfl, hrest⟩ := append_bracket_inj (fun hmem => hx (.tail _ hmem))
      (fun hmem => hy (.tail _ hmem)) htail
    exact ⟨rfl, hrest⟩

theorem toList_flowchartNode (name : String) :
    (flowchartNode name).toList = name.toList ++ '(' :: '(' :: (name.toList ++ [')', ')']) := by
  simp [flowchartNode]

/-- A node is read up to its end. -/
theorem flowchartNode_append_inj {name name' : String} {r r' : List Char}
    (h : '(' ∉ name.toList) (h' : '(' ∉ name'.toList)
    (heq : (flowchartNode name).toList ++ r = (flowchartNode name').toList ++ r') :
    name = name' ∧ r = r' := by
  rw [toList_flowchartNode, toList_flowchartNode, List.append_assoc, List.append_assoc] at heq
  obtain ⟨hname, hrest⟩ := append_bracket_inj h h' heq
  obtain rfl := String.toList_inj.mp hname
  exact ⟨rfl, List.append_cancel_left (List.cons.inj hrest).2⟩

namespace Line

theorem toList_text_edge (source : String) (symbol : Char) (target : String) :
    (edge source symbol target).text.toList = '\t' :: ((flowchartNode source).toList ++
      ' ' :: '-' :: '-' :: '>' :: '|' :: symbol :: '|' :: ' ' :: (flowchartNode target).toList) := by
  simp [text]

theorem toList_text_node (name : String) :
    (node name).text.toList = '\t' :: (flowchartNode name).toList := by
  simp [text]

/-- A line is read up to its end, if no blank stands behind it: with a blank behind it, a node is
the beginning of an edge. -/
theorem text_append_inj {line line' : Line} {r r' : List Char} (h : line.Proper)
    (h' : line'.Proper) (hr : r.head? ≠ some ' ') (hr' : r'.head? ≠ some ' ')
    (heq : line.text.toList ++ r = line'.text.toList ++ r') : line = line' ∧ r = r' := by
  cases line with
  | edge source symbol target =>
    cases line' with
    | edge source' symbol' target' =>
      simp only [toList_text_edge, List.cons_append, List.append_assoc] at heq
      obtain ⟨rfl, hrest⟩ := flowchartNode_append_inj (h source (.head _)) (h' source' (.head _))
        (List.cons.inj heq).2
      simp only [List.cons.injEq, true_and] at hrest
      obtain ⟨rfl, htarget⟩ := hrest
      obtain ⟨rfl, rfl⟩ := flowchartNode_append_inj (h target (.tail _ (.head _)))
        (h' target' (.tail _ (.head _))) htarget
      exact ⟨rfl, rfl⟩
    | node name' =>
      simp only [toList_text_edge, toList_text_node, List.cons_append, List.append_assoc] at heq
      obtain ⟨-, rfl⟩ := flowchartNode_append_inj (h source (.head _)) (h' name' (.head _))
        (List.cons.inj heq).2
      exact absurd rfl hr'
  | node name =>
    cases line' with
    | edge source' symbol' target' =>
      simp only [toList_text_edge, toList_text_node, List.cons_append, List.append_assoc] at heq
      obtain ⟨-, rfl⟩ := flowchartNode_append_inj (h name (.head _)) (h' source' (.head _))
        (List.cons.inj heq).2
      exact absurd rfl hr
    | node name' =>
      simp only [toList_text_node, List.cons_append] at heq
      obtain ⟨rfl, rfl⟩ := flowchartNode_append_inj (h name (.head _)) (h' name' (.head _))
        (List.cons.inj heq).2
      exact ⟨rfl, rfl⟩

/-- The text of some lines, each behind a line end. -/
def textOf (lines : List Line) : List Char := lines.flatMap fun line => '\n' :: line.text.toList

theorem textOf_cons (line : Line) (others : List Line) :
    textOf (line :: others) = '\n' :: (line.text.toList ++ textOf others) := rfl

theorem head?_textOf (lines : List Line) : (textOf lines).head? ≠ some ' ' := by
  cases lines with
  | nil => simp [textOf]
  | cons line others => simp [textOf_cons]

/-- **A text is read as lines in only one way.** -/
theorem textOf_injective : ∀ {lines lines' : List Line}, (∀ line ∈ lines, line.Proper) →
    (∀ line ∈ lines', line.Proper) → textOf lines = textOf lines' → lines = lines'
  | [], [], _, _, _ => rfl
  | [], _ :: _, _, _, h => absurd h (by simp [textOf])
  | _ :: _, [], _, _, h => absurd h (by simp [textOf])
  | line :: others, line' :: others', hproper, hproper', h => by
    rw [textOf_cons, textOf_cons] at h
    obtain ⟨rfl, hothers⟩ := text_append_inj (hproper line (.head _)) (hproper' line' (.head _))
      (head?_textOf others) (head?_textOf others') (List.cons.inj h).2
    rw [textOf_injective (fun l hl => hproper l (.tail _ hl)) (fun l hl => hproper' l (.tail _ hl))
      hothers]

end Line

/-! ## The lines of an automaton -/

variable {a b : Automaton}

/-- The lines of a state's edges. -/
def edgeLines (a : Automaton) (s : State) : List Line :=
  s.edges.map fun edge => .edge s.name edge.1.shown (a.nameOf edge.2)

/-- The lines of all edges, and then a node for each of some states. -/
def lines (a : Automaton) (alone : List State) : List Line :=
  a.states.toList.flatMap a.edgeLines ++ alone.map fun s => .node s.name

/-- No edge leaves or enters the state at `id`. -/
def Isolated (a : Automaton) (id : StateId) : Prop :=
  (∀ symbol q, ¬ a.HasEdge id symbol q) ∧ ∀ p symbol, ¬ a.HasEdge p symbol id

theorem isolated_of_closed (h : a.Closed) : ∃ alone, a.isolated? = some alone ∧
    ∀ s, s ∈ alone ↔ ∃ id, a.states[id]? = some s ∧ a.Isolated id := by
  obtain ⟨flags, htargeted, hflags⟩ := targeted_of_closed h fun _ => true
  have hisolated : ∀ {id : StateId} {s : State}, a.states[id]? = some s →
      ((s.hasTransitions || flags.getD id false) = false ↔ a.Isolated id) := by
    intro id s hs
    rw [Bool.or_eq_false_iff, ← Bool.not_eq_true, ← Bool.not_eq_true, State.hasTransitions_iff,
      hflags]
    simp [Isolated, hasEdge_iff hs]
  refine ⟨_, by rw [isolated?, htargeted]; rfl, fun s => ?_⟩
  rw [List.mem_filterMap]
  constructor
  · intro hs
    obtain ⟨⟨s', id⟩, hmem, hsome⟩ := hs
    rw [List.mk_mem_zipIdx_iff_getElem?, Array.getElem?_toList] at hmem
    cases hdrawn : s'.hasTransitions || flags.getD id false with
    | true =>
      simp only [hdrawn] at hsome
      exact absurd hsome (by simp)
    | false =>
      simp only [hdrawn] at hsome
      obtain rfl : s' = s := by simpa using hsome
      exact ⟨id, hmem, (hisolated hmem).mp hdrawn⟩
  · intro hs
    obtain ⟨id, hs, hid⟩ := hs
    refine ⟨(s, id), ?_, ?_⟩
    · rw [List.mk_mem_zipIdx_iff_getElem?, Array.getElem?_toList]
      exact hs
    · simp only [(hisolated hs).mpr hid]
      rfl

theorem flowchartLines_of_closed (h : a.Closed) {id : StateId} {s : State}
    (hs : a.states[id]? = some s) :
    flowchartLines? (a.states.map fun s => flowchartNode s.name) s =
      some ((a.edgeLines s).map Line.text) := by
  have htarget : ∀ entry ∈ s.transitions,
      flowchartEdges? (a.states.map fun s => flowchartNode s.name) (flowchartNode s.name) entry =
        some (entry.2.map fun q => (Line.edge s.name entry.1.shown (a.nameOf q)).text) := by
    intro entry hentry
    refine mapM_eq_some_map fun q hq => ?_
    have hlt : q < a.states.size :=
      h id entry.1 q ⟨s, hs, mem_edges_iff.mpr ⟨entry.2, hentry, hq⟩⟩
    have hname := nameOf_eq (Array.getElem?_eq_getElem hlt)
    rw [Array.getElem?_map, Array.getElem?_eq_getElem hlt, Symbol.text_eq, hname]
    rfl
  rw [flowchartLines?, mapM_eq_some_map htarget]
  simp [edgeLines, State.edges, List.flatMap_def, List.map_flatten, Function.comp_def]

theorem toList_intercalate_lines (header : String) (lines : List Line) :
    ("\n".intercalate (header :: lines.map Line.text)).toList =
      header.toList ++ Line.textOf lines := by
  rw [String.toList_intercalate, List.map_cons]
  generalize header.toList = front
  induction lines generalizing front with
  | nil => simp [Line.textOf, List.intercalate]
  | cons line others ih =>
    rw [List.map_cons, List.map_cons, List.intercalate_cons_cons, ih, Line.textOf_cons]
    simp

/-- **The flowchart is the text of its lines.** -/
theorem flowchart_of_closed (h : a.Closed) : ∃ alone d, a.flowchart? = some d ∧
    d.toList = flowchartHeader.toList ++ Line.textOf (a.lines alone) ∧
    ∀ s, s ∈ alone ↔ ∃ id, a.states[id]? = some s ∧ a.Isolated id := by
  obtain ⟨alone, hisolated, hmem⟩ := isolated_of_closed h
  have hedges : a.states.toList.mapM
      (flowchartLines? (a.states.map fun s => flowchartNode s.name)) =
        some (a.states.toList.map fun s => (a.edgeLines s).map Line.text) := by
    refine mapM_eq_some_map fun s hs => ?_
    obtain ⟨id, hid⟩ := mem_states_iff.mp hs
    exact flowchartLines_of_closed h hid
  have hflowchart : a.flowchart? =
      some ("\n".intercalate (flowchartHeader :: (a.lines alone).map Line.text)) := by
    rw [flowchart?, hedges, hisolated]
    simp [lines, List.flatMap_def, List.map_flatten, Function.comp_def, Line.text]
  exact ⟨alone, _, hflowchart, toList_intercalate_lines _ _, hmem⟩

/-! ## What the lines say -/

/-- The edge on a line, if it leaves the state of that name: its symbol as it is shown, and the name
of its target. -/
def Line.edgeFrom? (name : String) : Line → Option (Char × String)
  | edge source symbol target => if source = name then some (symbol, target) else none
  | node _ => none

/-- What can be read off some lines, if they are those of an automaton: the names are those of its
states, all of them are there, and the edges of each state are there in their order. -/
structure Draws (a : Automaton) (lines : List Line) : Prop where
  named : ∀ line ∈ lines, ∀ name ∈ line.names, ∃ (id : StateId) (s : State),
    a.states[id]? = some s ∧ name = s.name
  drawn : ∀ (id : StateId) (s : State), a.states[id]? = some s →
    ∃ line ∈ lines, s.name ∈ line.names
  edges : ∀ (id : StateId) (s : State), a.states[id]? = some s →
    lines.filterMap (Line.edgeFrom? s.name) = s.edges.map fun edge => (edge.1.shown, a.nameOf edge.2)

theorem Legible.nodup_names (h : a.Legible) : a.names.Nodup := by
  rw [names, List.nodup_iff_getElem?_ne_getElem?]
  intro i j hij hj heq
  rw [List.length_map, Array.length_toList] at hj
  have hi : i < a.states.size := Nat.lt_trans hij hj
  have hsi := Array.getElem?_eq_getElem hi
  have hsj := Array.getElem?_eq_getElem hj
  rw [List.getElem?_map, List.getElem?_map, Array.getElem?_toList, Array.getElem?_toList, hsi,
    hsj] at heq
  exact absurd (h.eq_of_name_eq h hsi hsj (Option.some.inj heq)).1 (Nat.ne_of_lt hij)

theorem filterMap_edgeLines_of_ne {s : State} {name : String} (h : s.name ≠ name) :
    (a.edgeLines s).filterMap (Line.edgeFrom? name) = [] := by
  rw [List.filterMap_eq_nil_iff]
  intro line hline
  obtain ⟨edge, -, rfl⟩ := List.mem_map.mp hline
  exact if_neg h

theorem filterMap_edgeLines_self (s : State) :
    (a.edgeLines s).filterMap (Line.edgeFrom? s.name) =
      s.edges.map fun edge => (edge.1.shown, a.nameOf edge.2) := by
  simp [edgeLines, List.filterMap_map, Function.comp_def, Line.edgeFrom?]

/-- Among the edges of states with different names, those of one state can be told by its name. -/
theorem filterMap_flatMap_edgeLines {s : State} : ∀ {states : List State},
    (states.map State.name).Nodup → s ∈ states →
    (states.flatMap a.edgeLines).filterMap (Line.edgeFrom? s.name) =
      s.edges.map fun edge => (edge.1.shown, a.nameOf edge.2)
  | first :: others, hnodup, hs => by
    obtain ⟨hfirst, hothers⟩ := List.nodup_cons.mp hnodup
    rw [List.flatMap_cons, List.filterMap_append]
    rcases List.mem_cons.mp hs with rfl | hs
    · have hnone : (others.flatMap a.edgeLines).filterMap (Line.edgeFrom? s.name) = [] := by
        rw [List.filterMap_eq_nil_iff]
        intro line hline
        obtain ⟨other, hother, hline⟩ := List.mem_flatMap.mp hline
        have hne : other.name ≠ s.name := fun h => hfirst (List.mem_map.mpr ⟨other, hother, h⟩)
        exact List.filterMap_eq_nil_iff.mp (filterMap_edgeLines_of_ne hne) line hline
      rw [hnone, filterMap_edgeLines_self, List.append_nil]
    · have hne : first.name ≠ s.name := fun h => hfirst (List.mem_map.mpr ⟨s, hs, h.symm⟩)
      rw [filterMap_edgeLines_of_ne hne, List.nil_append, filterMap_flatMap_edgeLines hothers hs]

theorem mem_lines_of_hasEdge {alone : List State} {p q : StateId} {symbol : Symbol}
    (h : a.HasEdge p symbol q) :
    Line.edge (a.nameOf p) symbol.shown (a.nameOf q) ∈ a.lines alone := by
  obtain ⟨s, hs, hedge⟩ := h
  rw [nameOf_eq hs]
  refine List.mem_append_left _ (List.mem_flatMap.mpr ⟨s, mem_states_iff.mpr ⟨p, hs⟩, ?_⟩)
  exact List.mem_map.mpr ⟨(symbol, q), hedge, rfl⟩

theorem Legible.draws_lines (h : a.Legible) {alone : List State}
    (halone : ∀ s, s ∈ alone ↔ ∃ id, a.states[id]? = some s ∧ a.Isolated id) :
    a.Draws (a.lines alone) where
  named line hline name hname := by
    rcases List.mem_append.mp hline with hline | hline
    · obtain ⟨s, hs, hline⟩ := List.mem_flatMap.mp hline
      obtain ⟨p, hp⟩ := mem_states_iff.mp hs
      obtain ⟨⟨symbol, q⟩, hedge, rfl⟩ := List.mem_map.mp hline
      have hq : q < a.states.size := h.closed p symbol q ⟨s, hp, hedge⟩
      have hs' := Array.getElem?_eq_getElem hq
      rcases List.mem_pair.mp hname with rfl | rfl
      · exact ⟨p, s, hp, rfl⟩
      · exact ⟨q, _, hs', nameOf_eq hs'⟩
    · obtain ⟨s, hs, rfl⟩ := List.mem_map.mp hline
      obtain ⟨id, hs, -⟩ := (halone s).mp hs
      exact ⟨id, s, hs, List.mem_singleton.mp hname⟩
  drawn id s hs := by
    by_cases hisolated : a.Isolated id
    · have hmem : s ∈ alone := (halone s).mpr ⟨id, hs, hisolated⟩
      exact ⟨.node s.name, List.mem_append_right _ (List.mem_map.mpr ⟨s, hmem, rfl⟩), .head _⟩
    · rw [Isolated, not_and_or] at hisolated
      rw [← nameOf_eq hs]
      rcases hisolated with hleaves | henters
      · simp only [not_forall, not_not] at hleaves
        obtain ⟨symbol, q, hedge⟩ := hleaves
        exact ⟨_, mem_lines_of_hasEdge hedge, .head _⟩
      · simp only [not_forall, not_not] at henters
        obtain ⟨p, symbol, hedge⟩ := henters
        exact ⟨_, mem_lines_of_hasEdge hedge, .tail _ (.head _)⟩
  edges id s hs := by
    have hmem : s ∈ a.states.toList := mem_states_iff.mpr ⟨id, hs⟩
    have hnodes : (alone.map fun s => Line.node s.name).filterMap (Line.edgeFrom? s.name) = [] := by
      rw [List.filterMap_eq_nil_iff]
      intro line hline
      obtain ⟨s', -, rfl⟩ := List.mem_map.mp hline
      rfl
    rw [lines, List.filterMap_append, hnodes, List.append_nil,
      filterMap_flatMap_edgeLines h.nodup_names hmem]

/-! ## Reading the automaton back -/

section Unique

variable (ha : a.Legible) (hb : b.Legible) {lines : List Line}

include ha hb

/-- The states are those whose names are on the lines. -/
theorem Draws.state (hdraws : a.Draws lines) (hdraws' : b.Draws lines) {id : StateId} {s : State}
    (hs : a.states[id]? = some s) : ∃ s', b.states[id]? = some s' ∧ s.name = s'.name := by
  obtain ⟨line, hline, hname⟩ := hdraws.drawn id s hs
  obtain ⟨id', s', hs', heq⟩ := hdraws'.named line hline s.name hname
  obtain ⟨rfl, -⟩ := ha.eq_of_name_eq hb hs hs' heq
  exact ⟨s', hs', heq⟩

theorem edges_eq_of_shown_eq {p : StateId} : ∀ {edges edges' : List (Symbol × StateId)},
    (∀ edge ∈ edges, a.HasEdge p edge.1 edge.2) → (∀ edge ∈ edges', b.HasEdge p edge.1 edge.2) →
    (edges.map fun edge => (edge.1.shown, a.nameOf edge.2)) =
      (edges'.map fun edge => (edge.1.shown, b.nameOf edge.2)) → edges = edges'
  | [], [], _, _, _ => rfl
  | [], _ :: _, _, _, h => absurd h (by simp)
  | _ :: _, [], _, _, h => absurd h (by simp)
  | (symbol, q) :: others, (symbol', q') :: others', hedges, hedges', h => by
    obtain ⟨hfirst, hothers⟩ := List.cons.inj h
    obtain ⟨rfl, rfl⟩ := ha.edge_eq_of_shown_eq hb (hedges _ (.head _)) (hedges' _ (.head _))
      (Prod.mk.inj hfirst).1 (Prod.mk.inj hfirst).2
    rw [edges_eq_of_shown_eq (fun edge hedge => hedges edge (.tail _ hedge))
      (fun edge hedge => hedges' edge (.tail _ hedge)) hothers]

theorem Draws.getElem? (hdraws : a.Draws lines) (hdraws' : b.Draws lines) {id : StateId} {s : State}
    (hs : a.states[id]? = some s) : b.states[id]? = some s := by
  obtain ⟨s', hs', hname⟩ := hdraws.state ha hb hdraws' hs
  have hedges : s.edges = s'.edges := by
    have hlines := hdraws'.edges id s' hs'
    rw [← hname, hdraws.edges id s hs] at hlines
    exact edges_eq_of_shown_eq ha hb (fun edge hedge => ⟨s, hs, hedge⟩)
      (fun edge hedge => ⟨s', hs', hedge⟩) hlines
  have htransitions : s.transitions = s'.transitions :=
    (ha.keyed id s hs).eq_of_edgesOf_eq (hb.keyed id s' hs') hedges
  have hlabel : s.label = s'.label := (ha.label id s hs).trans (hb.label id s' hs').symm
  have haccepting := (ha.eq_of_name_eq hb hs hs' hname).2
  cases s
  cases s'
  rw [hs', Option.some.injEq, State.mk.injEq]
  exact ⟨hlabel.symm, haccepting.symm, htransitions.symm⟩

/-- **Lines are drawn for one automaton at most.** -/
theorem Draws.unique (hdraws : a.Draws lines) (hdraws' : b.Draws lines) : a = b := by
  have hstates : a.states = b.states := by
    refine Array.ext_getElem? fun id => Option.ext fun s => ?_
    exact ⟨hdraws.getElem? ha hb hdraws', hdraws'.getElem? hb ha hdraws⟩
  cases a
  cases b
  exact congrArg Automaton.mk hstates

end Unique

theorem Draws.proper (h : a.Legible) {lines : List Line} (hdraws : a.Draws lines) :
    ∀ line ∈ lines, line.Proper := by
  intro line hline name hname
  obtain ⟨id, s, hs, rfl⟩ := hdraws.named line hline name hname
  exact State.not_mem_name (by decide) (by decide) (by decide) (by decide) (h.label id s hs)

/-- Below the header there is at least the line of the start state. -/
theorem Legible.flowchart_ne_header (h : a.Legible) (hpos : 0 < a.size) :
    ∃ d, a.flowchart? = some d ∧ d ≠ flowchartHeader := by
  obtain ⟨alone, d, hd, htext, halone⟩ := flowchart_of_closed h.closed
  refine ⟨d, hd, ?_⟩
  rintro rfl
  obtain ⟨line, hline, -⟩ := (h.draws_lines halone).drawn 0 _ (Array.getElem?_eq_getElem hpos)
  have hnil : Line.textOf (a.lines alone) = [] := List.self_eq_append_right.mp htext
  have hnone := List.flatMap_eq_nil_iff.mp hnil line hline
  exact absurd hnone (List.cons_ne_nil _ _)

/-- **A legible automaton has a flowchart, and no other legible automaton has the same.** -/
theorem Legible.eq_of_flowchart_eq (ha : a.Legible) (hb : b.Legible) :
    ∃ d d', a.flowchart? = some d ∧ b.flowchart? = some d' ∧ (d = d' → a = b) := by
  obtain ⟨alone, d, hd, htext, halone⟩ := flowchart_of_closed ha.closed
  obtain ⟨alone', d', hd', htext', halone'⟩ := flowchart_of_closed hb.closed
  refine ⟨d, d', hd, hd', fun heq => ?_⟩
  have hdraws := ha.draws_lines halone
  have hdraws' := hb.draws_lines halone'
  have hlines : a.lines alone = b.lines alone' := by
    rw [heq, htext'] at htext
    exact Line.textOf_injective (hdraws.proper ha) (hdraws'.proper hb)
      (List.append_cancel_left htext).symm
  exact hdraws.unique ha hb (hlines ▸ hdraws')

end Automaton

/-- **The flowchart of a pattern shows all of its automaton.** Two patterns, with whatever characters
and limits, whose flowcharts are the same text have the same automaton: states, labels, marks and
transitions in their order, the character `ε` told from no character. -/
theorem compile_flowchart_injective {limits limits' : Pattern.Limits} {pattern pattern' : String}
    {a b : Automaton} (ha : compile limits pattern = .ok a) (hb : compile limits' pattern' = .ok b) :
    ∃ d d', a.flowchart? = some d ∧ b.flowchart? = some d' ∧
      (d = d' → a = b ∧ a.table? = b.table?) := by
  obtain ⟨d, d', hd, hd', heq⟩ := (legible_of_compile ha).eq_of_flowchart_eq (legible_of_compile hb)
  refine ⟨d, d', hd, hd', fun h => ?_⟩
  obtain rfl := heq h
  exact ⟨rfl, rfl⟩

/-- Both flowcharts show an edge out of the last state as `ε`; one reads the character again, the
other leads back. -/
theorem compile_flowchart_injective_epsilon :
    let own : Extent := .concatenation [.repetition (.leaf 'ε')]
    let back : Extent := .repetition (.literal ['ε'])
    compile {} "ε^" = .ok own.compile ∧ compile {} "(ε)^" = .ok back.compile ∧
    ∃ d d', own.compile.flowchart? = some d ∧ back.compile.flowchart? = some d' ∧
      (d = d' → own.compile = back.compile ∧ own.compile.table? = back.compile.table?) := by
  intro own back
  have hown : compile {} "ε^" = .ok own.compile := rfl
  have hback : compile {} "(ε)^" = .ok back.compile := rfl
  exact ⟨hown, hback, compile_flowchart_injective hown hback⟩

end CaretAutomata

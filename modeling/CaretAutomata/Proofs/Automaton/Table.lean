import CaretAutomata.Proofs.Automaton.Legible
import CaretAutomata.Proofs.Automaton.Sheet

/-!
# The table shows every transition

The table of an automaton is the text of a sheet (`table_of_closed`), so two automata with the same
table have the same sheet. What is left is to tell from it which symbol a column stands for, since
the column of the character `ε` looks like the column of no character. The edges in a column tell:
each symbol has one, an edge consumes nothing exactly if it leads back, and its ends are in the
table. With the symbols the entries are known too (`Legible.of_table_eq`). In which order a state
got its entries does not show, and nothing is said of it.
-/

namespace CaretAutomata

namespace Automaton

variable {a b : Automaton}

/-! ## The sheet of an automaton -/

/-- The names of a state's targets on a symbol. -/
def cell (a : Automaton) (s : State) (symbol : Symbol) : Cell :=
  (s.transitions.lookup symbol).map (List.map a.nameOf)

def row (a : Automaton) (s : State) : Row := ⟨s.name, a.alphabet.map (a.cell s)⟩

def sheet (a : Automaton) : Sheet := ⟨a.alphabet.map Symbol.shown, a.states.toList.map a.row⟩

theorem mem_of_lookup {transitions : List (Symbol × List StateId)} {symbol : Symbol}
    {targets : List StateId} (h : transitions.lookup symbol = some targets) :
    (symbol, targets) ∈ transitions := by
  obtain ⟨front, back, rfl, -⟩ := List.lookup_eq_some_iff.mp h
  exact List.mem_append_right _ (.head _)

theorem hasEdge_of_lookup {id : StateId} {s : State} (hs : a.states[id]? = some s)
    {symbol : Symbol} {targets : List StateId} (h : s.transitions.lookup symbol = some targets)
    {q : StateId} (hq : q ∈ targets) : a.HasEdge id symbol q :=
  ⟨s, hs, mem_edges_iff.mpr ⟨targets, mem_of_lookup h, hq⟩⟩

theorem tableCell_of_closed (h : a.Closed) {id : StateId} {s : State}
    (hs : a.states[id]? = some s) (symbol : Symbol) :
    a.tableCell? s symbol = some ("\t" ++ (a.cell s symbol).text) := by
  unfold tableCell? cell
  cases hlookup : s.transitions.lookup symbol with
  | none => rfl
  | some targets =>
    have hnames : targets.mapM a.name? = some (targets.map a.nameOf) := by
      refine mapM_eq_some_map fun q hq => ?_
      have hlt : q < a.states.size := h id symbol q (hasEdge_of_lookup hs hlookup hq)
      have hq := Array.getElem?_eq_getElem hlt
      rw [nameOf_eq hq, name?, hq]
      rfl
    simp only [hnames]
    show some _ = some _
    rw [Option.some.injEq, ← String.toList_inj]
    simp [Cell.text]

/-- A tab in front of every cell is a tab between all fields of a row. -/
theorem join_tab (first : String) (fields : List String) :
    String.join (first :: fields.map ("\t" ++ ·)) = "\t".intercalate (first :: fields) := by
  rw [← String.toList_inj]
  induction fields generalizing first with
  | nil => simp
  | cons second others ih =>
    have hothers := ih second
    simp only [String.toList_intercalate, List.map_cons, List.intercalate_cons_cons] at hothers ⊢
    rw [← hothers]
    simp

theorem tableRow_of_closed (h : a.Closed) {id : StateId} {s : State}
    (hs : a.states[id]? = some s) : a.tableRow? a.alphabet s = some (a.row s).text := by
  rw [tableRow?, mapM_eq_some_map fun symbol _ => tableCell_of_closed h hs symbol]
  show some _ = some _
  rw [Row.text, row, List.map_map, ← join_tab, List.map_map]
  rfl

/-- **The table is the text of the sheet.** -/
theorem table_of_closed (h : a.Closed) : a.table? = some a.sheet.text := by
  have hrows : a.states.toList.mapM (a.tableRow? a.alphabet) =
      some (a.states.toList.map fun s => (a.row s).text) := by
    refine mapM_eq_some_map fun s hs => ?_
    obtain ⟨id, hid⟩ := mem_states_iff.mp hs
    exact tableRow_of_closed h hid
  simp only [table?, hrows]
  show some _ = some _
  simp [Sheet.text, sheet, headerText, tableHeader, Symbol.text_eq, Function.comp_def]

theorem Legible.unbroken_name (h : a.Legible) {id : StateId} {s : State}
    (hs : a.states[id]? = some s) : Unbroken s.name := by
  intro c hc
  have hlabel := h.label id s hs
  simp only [List.mem_cons, List.not_mem_nil, or_false] at hc
  rcases hc with rfl | rfl | rfl <;>
    exact State.not_mem_name (by decide) (by decide) (by decide) (by decide) hlabel

theorem Legible.proper_sheet (h : a.Legible) (hpos : 0 < a.size) : a.sheet.Proper where
  nonempty := by
    have hne : a.states.toList ≠ [] := by
      rw [← List.length_pos_iff, Array.length_toList]
      exact hpos
    simpa [sheet] using hne
  width row hrow := by
    obtain ⟨s, -, rfl⟩ := List.mem_map.mp hrow
    simp [Automaton.row, sheet]
  rows row hrow := by
    obtain ⟨s, hs, rfl⟩ := List.mem_map.mp hrow
    obtain ⟨id, hid⟩ := mem_states_iff.mp hs
    refine ⟨h.unbroken_name hid, fun cell hcell names hnames => ?_⟩
    obtain ⟨symbol, -, rfl⟩ := List.mem_map.mp hcell
    obtain ⟨targets, hlookup, rfl⟩ := Option.map_eq_some_iff.mp hnames
    refine ⟨by simpa using h.keyed id s hid |>.nonempty _ (mem_of_lookup hlookup), ?_⟩
    intro name hname
    obtain ⟨q, hq, rfl⟩ := List.mem_map.mp hname
    have hlt : q < a.states.size := h.closed id symbol q (hasEdge_of_lookup hid hlookup hq)
    have hstate := Array.getElem?_eq_getElem hlt
    rw [nameOf_eq hstate]
    exact h.unbroken_name hstate

/-! ## What a sheet tells -/

theorem nameOf_eq_getD (a : Automaton) (id : StateId) : a.nameOf id = (a.names[id]?).getD "" := by
  rw [nameOf, name?, names, List.getElem?_map, Array.getElem?_toList]

theorem exists_lookup_of_mem_alphabet {symbol : Symbol} (h : symbol ∈ a.alphabet) :
    ∃ (id : StateId) (s : State) (targets : List StateId), a.states[id]? = some s ∧
      s.transitions.lookup symbol = some targets := by
  rw [alphabet, Arrival.mem_distinct] at h
  obtain ⟨s, hs, hsymbol⟩ := List.mem_flatMap.mp h
  obtain ⟨entry, hentry, rfl⟩ := List.mem_map.mp hsymbol
  obtain ⟨id, hid⟩ := mem_states_iff.mp hs
  have hsome : (s.transitions.lookup entry.1).isSome :=
    List.lookup_isSome_iff.mpr ⟨entry, hentry, beq_self_eq_true _⟩
  obtain ⟨targets, htargets⟩ := Option.isSome_iff_exists.mp hsome
  exact ⟨id, s, targets, hid, htargets⟩

theorem lookup_of_not_mem_alphabet {symbol : Symbol} (h : symbol ∉ a.alphabet) {id : StateId}
    {s : State} (hs : a.states[id]? = some s) : s.transitions.lookup symbol = none := by
  rw [List.lookup_eq_none_iff]
  intro entry hentry
  rw [bne_iff_ne]
  rintro rfl
  refine h (Arrival.mem_distinct.mpr (List.mem_flatMap.mpr ⟨s, mem_states_iff.mpr ⟨id, hs⟩, ?_⟩))
  exact List.mem_map.mpr ⟨entry, hentry, rfl⟩

section Same

variable (ha : a.Legible) (hb : b.Legible) (heq : a.sheet = b.sheet)

include heq

theorem row_eq_of_sheet_eq {id : StateId} {s s' : State} (hs : a.states[id]? = some s)
    (hs' : b.states[id]? = some s') : a.row s = b.row s' := by
  have hrows := congrArg (·[id]?) (Sheet.mk.inj heq).2
  simpa [hs, hs'] using hrows

theorem size_eq_of_sheet_eq : a.size = b.size := by
  simpa [size] using congrArg List.length (Sheet.mk.inj heq).2

theorem nameOf_eq_of_sheet_eq : a.nameOf = b.nameOf := by
  have hnames : a.names = b.names := by
    simpa [names, Function.comp_def, row] using congrArg (List.map Row.name) (Sheet.mk.inj heq).2
  funext id
  rw [nameOf_eq_getD, nameOf_eq_getD, hnames]

theorem exists_state_of_sheet_eq {id : StateId} {s : State} (hs : a.states[id]? = some s) :
    ∃ s', b.states[id]? = some s' := by
  have hlt : id < a.size := (Array.getElem?_eq_some_iff.mp hs).1
  rw [size_eq_of_sheet_eq heq] at hlt
  exact ⟨_, Array.getElem?_eq_getElem hlt⟩

include ha hb

/-- Names of targets give the targets. -/
theorem targets_eq_of_sheet_eq {p : StateId} {x y : Symbol} {targets targets' : List StateId}
    (htargets : ∀ q ∈ targets, a.HasEdge p x q) (htargets' : ∀ q ∈ targets', b.HasEdge p y q)
    (h : targets.map a.nameOf = targets'.map b.nameOf) : targets = targets' := by
  rw [nameOf_eq_of_sheet_eq heq] at h
  refine map_inj_of_mem (fun q hq q' hq' hname => ?_) h
  have hlt : q < b.states.size := by
    rw [← size, ← size_eq_of_sheet_eq heq]
    exact ha.closed p x q (htargets q hq)
  have hlt' : q' < b.states.size := hb.closed p y q' (htargets' q' hq')
  have hs := Array.getElem?_eq_getElem hlt
  have hs' := Array.getElem?_eq_getElem hlt'
  rw [nameOf_eq hs, nameOf_eq hs'] at hname
  exact (hb.eq_of_name_eq hb hs hs' hname).1

/-- In the same column stand the same targets, whatever symbols it is the column of. -/
theorem lookup_eq_of_sheet_eq {i : Nat} {x y : Symbol} (hx : a.alphabet[i]? = some x)
    (hy : b.alphabet[i]? = some y) {id : StateId} {s s' : State} (hs : a.states[id]? = some s)
    (hs' : b.states[id]? = some s') : s.transitions.lookup x = s'.transitions.lookup y := by
  have hcells := congrArg (·[i]?) (Row.mk.inj (row_eq_of_sheet_eq heq hs hs')).2
  simp only [List.getElem?_map, hx, hy, Option.map_some, Option.some.injEq, cell] at hcells
  cases hlookup : s.transitions.lookup x with
  | none =>
    rw [hlookup] at hcells
    exact (Option.map_eq_none_iff.mp hcells.symm).symm
  | some targets =>
    rw [hlookup] at hcells
    obtain ⟨targets', hlookup', hnames⟩ := Option.map_eq_some_iff.mp hcells.symm
    have htargets := targets_eq_of_sheet_eq ha hb heq (fun q => hasEdge_of_lookup hs hlookup)
      (fun q => hasEdge_of_lookup hs' hlookup') hnames.symm
    rw [hlookup', htargets]

/-- A column stands for one symbol: an edge in it says which of those that look alike. -/
theorem symbol_eq_of_sheet_eq {i : Nat} {x y : Symbol} (hx : a.alphabet[i]? = some x)
    (hy : b.alphabet[i]? = some y) : x = y := by
  have hshown : x.shown = y.shown := by
    simpa [hx, hy] using congrArg (·[i]?) (Sheet.mk.inj heq).1
  obtain ⟨id, s, targets, hs, hlookup⟩ := exists_lookup_of_mem_alphabet (List.mem_of_getElem? hx)
  obtain ⟨s', hs'⟩ := exists_state_of_sheet_eq heq hs
  have hlookup' := (lookup_eq_of_sheet_eq ha hb heq hx hy hs hs').symm.trans hlookup
  have hne := (ha.keyed id s hs).nonempty _ (mem_of_lookup hlookup)
  obtain ⟨q, hq⟩ := List.exists_mem_of_ne_nil _ hne
  exact (ha.edge_eq_of_shown_eq hb (hasEdge_of_lookup hs hlookup hq)
    (hasEdge_of_lookup hs' hlookup' hq) hshown (congrFun (nameOf_eq_of_sheet_eq heq) q)).1

theorem alphabet_eq_of_sheet_eq : a.alphabet = b.alphabet := by
  have hlength : a.alphabet.length = b.alphabet.length := by
    simpa using congrArg List.length (Sheet.mk.inj heq).1
  refine List.ext_getElem hlength fun i hi hi' => ?_
  exact symbol_eq_of_sheet_eq ha hb heq (List.getElem?_eq_getElem hi) (List.getElem?_eq_getElem hi')

/-- The entries of a state for a symbol are in the sheet, if the symbol is. -/
theorem state_targets_eq_of_sheet_eq {id : StateId} {s s' : State} (hs : a.states[id]? = some s)
    (hs' : b.states[id]? = some s') (symbol : Symbol) : s.targets symbol = s'.targets symbol := by
  have halphabet := alphabet_eq_of_sheet_eq ha hb heq
  unfold State.targets
  by_cases hsymbol : symbol ∈ a.alphabet
  · obtain ⟨i, hi⟩ := List.mem_iff_getElem?.mp hsymbol
    rw [lookup_eq_of_sheet_eq ha hb heq hi (halphabet ▸ hi) hs hs']
  · rw [lookup_of_not_mem_alphabet hsymbol hs, lookup_of_not_mem_alphabet (halphabet ▸ hsymbol) hs']

end Same

/-- The same labels and marks, and the same targets in the same order on every symbol. -/
def SameEntries (s s' : State) : Prop :=
  s.label = s'.label ∧ s.accepting = s'.accepting ∧
    ∀ symbol, s.targets symbol = s'.targets symbol

/-- **A legible automaton has a table, and it shows all but the order of a state's entries.** -/
theorem Legible.of_table_eq (ha : a.Legible) (hb : b.Legible) (hpos : 0 < a.size)
    (hpos' : 0 < b.size) : ∃ t t', a.table? = some t ∧ b.table? = some t' ∧
      (t = t' → a.size = b.size ∧ a.alphabet = b.alphabet ∧
        ∀ (id : StateId) (s s' : State), a.states[id]? = some s → b.states[id]? = some s' →
          SameEntries s s') := by
  refine ⟨_, _, table_of_closed ha.closed, table_of_closed hb.closed, fun htext => ?_⟩
  have heq := Sheet.text_inj (ha.proper_sheet hpos) (hb.proper_sheet hpos') htext
  refine ⟨size_eq_of_sheet_eq heq, alphabet_eq_of_sheet_eq ha hb heq, fun id s s' hs hs' => ?_⟩
  have hname := (Row.mk.inj (row_eq_of_sheet_eq heq hs hs')).1
  refine ⟨?_, (ha.eq_of_name_eq hb hs hs' hname).2, state_targets_eq_of_sheet_eq ha hb heq hs hs'⟩
  exact (ha.label id s hs).trans (hb.label id s' hs').symm

end Automaton

/-- **The table of a pattern shows all its transitions.** Two patterns, with whatever characters and
limits, whose tables are the same text have automata with the same labels, marks and alphabets, and
on every symbol the same targets in the same order, the character `ε` told from no character. -/
theorem compile_table_injective {limits limits' : Pattern.Limits} {pattern pattern' : String}
    {a b : Automaton} (ha : compile limits pattern = .ok a) (hb : compile limits' pattern' = .ok b) :
    ∃ t t', a.table? = some t ∧ b.table? = some t' ∧
      (t = t' → a.size = b.size ∧ a.alphabet = b.alphabet ∧
        ∀ (id : StateId) (s s' : State), a.states[id]? = some s → b.states[id]? = some s' →
          Automaton.SameEntries s s') :=
  (legible_of_compile ha).of_table_eq (legible_of_compile hb) (size_pos_of_compile ha)
    (size_pos_of_compile hb)

/-- A tab and a quote, in either order: the first rows are cut at tabs between quotes, and either is
the other one's symbols in between. -/
theorem compile_table_injective_tabs :
    let a : Extent := .literal "\t'".toList
    let b : Extent := .literal "'\t".toList
    compile {} "\t'" = .ok a.compile ∧ compile {} "'\t" = .ok b.compile ∧
    ∃ t t', a.compile.table? = some t ∧ b.compile.table? = some t' ∧
      (t = t' → a.compile.size = b.compile.size ∧ a.compile.alphabet = b.compile.alphabet ∧
        ∀ (id : StateId) (s s' : State), a.compile.states[id]? = some s →
          b.compile.states[id]? = some s' → Automaton.SameEntries s s') := by
  intro a b
  have ha : compile {} "\t'" = .ok a.compile := rfl
  have hb : compile {} "'\t" = .ok b.compile := rfl
  exact ⟨ha, hb, compile_table_injective ha hb⟩

end CaretAutomata

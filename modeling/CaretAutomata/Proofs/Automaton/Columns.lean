import CaretAutomata.Proofs.Automaton.Census
import CaretAutomata.Proofs.Automaton.Table
import CaretAutomata.Proofs.Pattern.Redundancy

/-!
# The columns of the table

The columns are discovered: a symbol has one if some state has an entry for it. Which symbols these
are can be told from the text. Every letter has a column, since something is read into every leaf
(`exists_reads_to`), and that nothing is consumed is a column of its own if a marker stands behind a
closing bracket, since every repeated group leads back somewhere (`hasSilent_wire`). Neither would
be so if a part of the tree had no end or nothing in front of it: a union without alternatives has
no exits, and a concatenation without parts leads back from nowhere.
-/

namespace CaretAutomata

open Positions

namespace Extent

open Automaton

/-! ## Parts have ends -/

theorem exists_last_of_ends {P : Positions} {N : Nat → Nat → Prop} : ∀ {w : List Nat} {x : Nat},
    P.Ends N x w → ∃ y, y ∈ P.last
  | [], x, h => ⟨x, h⟩
  | _ :: _, _, h => exists_last_of_ends h.2

theorem exits_wire_ne_nil {e : Extent} {n : Nat} {S R : List StateId} (h : e.Solid) (hS : S ≠ []) :
    (e.wire n S R).exits ≠ [] := by
  obtain ⟨w, hw⟩ := exists_accepts e n h
  cases w with
  | nil =>
    obtain ⟨x, hx⟩ := List.exists_mem_of_ne_nil S hS
    exact List.ne_nil_of_mem ((mem_exits_wire e n S R x).mpr (.inr ⟨hw, hx⟩))
  | cons x w =>
    obtain ⟨y, hy⟩ := exists_last_of_ends hw.2
    exact List.ne_nil_of_mem ((mem_exits_wire e n S R y).mpr (.inl hy))

/-! ## Repeated groups lead back -/

/-- Some edge consumes nothing. -/
def HasSilent (edges : List Edge) : Prop := ∃ edge ∈ edges, edge.symbol = .epsilon

theorem hasSilent_append {front back : List Edge} :
    HasSilent (front ++ back) ↔ HasSilent front ∨ HasSilent back := by
  simp only [HasSilent, List.mem_append, or_and_right, exists_or]

theorem not_hasSilent_enter {S : List StateId} {c : Char} {n : Nat} : ¬ HasSilent (enter S c n) := by
  simp [HasSilent, enter]

theorem hasSilent_loopBack {n : Nat} {R : List StateId} : HasSilent (loopBack n R) ↔ R ≠ [] := by
  simp [HasSilent, loopBack, List.eq_nil_iff_forall_not_mem]

mutual

/-- **A part has edges that consume nothing if it has repeaters, or a repeated group in it.** -/
theorem hasSilent_wire : ∀ (e : Extent) (n : Nat) (S R : List StateId), e.Solid → e.Filled →
    S ≠ [] → (HasSilent (e.wire n S R).edges ↔ R ≠ [] ∨ .round ∈ e.signs)
  | leaf _, n, S, R, _, _, _ => by
    rw [wire, hasSilent_append, or_iff_right not_hasSilent_enter, hasSilent_loopBack, signs]
    simp
  | concatenation parts, n, S, R, hsolid, hfilled, hS =>
    hasSilent_wireParts parts n S R hfilled.1 hsolid hfilled.2 hS
  | union alternatives, n, S, R, hsolid, hfilled, hS => by
    have halternatives := hasSilent_wireAlternatives alternatives n S R hsolid.2 hfilled hS
    rwa [and_iff_left hsolid.1] at halternatives
  | repetition body, n, S, R, hsolid, hfilled, hS => by
    cases hleaf : body.isLeaf with
    | true =>
      obtain ⟨c, rfl⟩ := exists_leaf_of_isLeaf hleaf
      -- the loop of a character is an edge that enters it from itself
      show HasSilent (enter S c n ++ (enter [n] c n ++ loopBack n R)) ↔ _
      rw [hasSilent_append, or_iff_right not_hasSilent_enter, hasSilent_append,
        or_iff_right not_hasSilent_enter, hasSilent_loopBack, signs]
      simp
    | false =>
      -- what the body leads back to are the starters at least
      have hmerge : Arrival.merge R S ≠ [] := by
        obtain ⟨x, hx⟩ := List.exists_mem_of_ne_nil S hS
        exact List.ne_nil_of_mem (Arrival.mem_merge.mpr (.inr hx))
      have hbody := hasSilent_wire body n S (Arrival.merge R S) hsolid hfilled hS
      rw [wire_repetition hleaf, hbody, signs_repetition hleaf]
      simp [hmerge]

theorem hasSilent_wireParts : ∀ (es : List Extent) (n : Nat) (S R : List StateId), es ≠ [] →
    SolidAll es → FilledAll es → S ≠ [] →
    (HasSilent (wireParts es n S R).edges ↔ R ≠ [] ∨ .round ∈ signsAll es)
  | [], _, _, _, hne, _, _, _ => absurd rfl hne
  | [last], n, S, R, _, hsolid, hfilled, hS => by
    rw [signsAll, signsAll, List.append_nil]
    exact hasSilent_wire last n S R hsolid.1 hfilled.1 hS
  | e :: e' :: others, n, S, R, _, hsolid, hfilled, hS => by
    have hfirst := hasSilent_wire e n S [] hsolid.1 hfilled.1 hS
    have hrest := hasSilent_wireParts (e' :: others) (n + e.leafCount) (e.wire n S []).exits R
      (List.cons_ne_nil _ _) hsolid.2 hfilled.2 (exits_wire_ne_nil hsolid.1 hS)
    have hsigns : .round ∈ signsAll (e :: e' :: others) ↔
        .round ∈ e.signs ∨ .round ∈ signsAll (e' :: others) := List.mem_append
    -- a part with others behind it has no repeaters
    have hnone : ¬ ([] : List StateId) ≠ [] := fun h => h rfl
    rw [or_iff_right hnone] at hfirst
    rw [wireParts, hasSilent_append, hfirst, hrest, hsigns]
    · exact or_left_comm
    · simp

theorem hasSilent_wireAlternatives : ∀ (es : List Extent) (n : Nat) (S R : List StateId),
    SolidAll es → FilledAll es → S ≠ [] →
    (HasSilent (wireAlternatives es n S R).edges ↔ (R ≠ [] ∧ es ≠ []) ∨ .round ∈ signsAll es)
  | [], n, S, R, _, _, _ => by simp [wireAlternatives, HasSilent, signsAll]
  | e :: others, n, S, R, hsolid, hfilled, hS => by
    have hfirst := hasSilent_wire e n S R hsolid.1 hfilled.1 hS
    have hrest := hasSilent_wireAlternatives others (n + e.leafCount) S R hsolid.2 hfilled.2 hS
    rw [wireAlternatives, hasSilent_append, hfirst, hrest, signsAll, List.mem_append]
    simp only [ne_eq, List.cons_ne_nil, not_false_eq_true, and_true]
    tauto

end

end Extent

/-! ## The alphabet of a tree's automaton -/

namespace Automaton

open Extent

/-- A map has no entry without targets, so there is an edge for every symbol. -/
theorem Legible.mem_alphabet_iff {a : Automaton} (h : a.Legible) {symbol : Symbol} :
    symbol ∈ a.alphabet ↔ ∃ p q, a.HasEdge p symbol q := by
  constructor
  · intro hsymbol
    obtain ⟨id, s, targets, hs, hlookup⟩ := exists_lookup_of_mem_alphabet hsymbol
    have hne := (h.keyed id s hs).nonempty _ (mem_of_lookup hlookup)
    obtain ⟨q, hq⟩ := List.exists_mem_of_ne_nil _ hne
    exact ⟨id, q, hasEdge_of_lookup hs hlookup hq⟩
  · intro hedge
    obtain ⟨p, q, s, hs, hmem⟩ := hedge
    obtain ⟨targets, hentry, -⟩ := mem_edges_iff.mp hmem
    rw [alphabet, Arrival.mem_distinct, List.mem_flatMap]
    exact ⟨s, mem_states_iff.mpr ⟨p, hs⟩, List.mem_map.mpr ⟨_, hentry, rfl⟩⟩

variable {e : Extent}

/-- Something is read into every leaf. -/
theorem exists_reads_to (h : e.Solid) {q : StateId} (hq : 1 ≤ q) (hq' : q < 1 + e.leafCount) :
    ∃ p, (ofExtent e).Reads p q := by
  obtain ⟨u, v, hw⟩ := exists_accepts_through e 1 h q hq hq'
  obtain ⟨_, -, htrail⟩ := accepts_follows_iff.mp hw
  obtain ⟨p, -, hread, -⟩ := Trail.append.mp htrail
  exact ⟨p, hread⟩

theorem exists_edge_char_iff (h : e.Solid) {c : Char} :
    (∃ p q, (ofExtent e).HasEdge p (.char c) q) ↔ c ∈ e.characters := by
  constructor
  · intro hedge
    obtain ⟨p, q, hedge⟩ := hedge
    obtain ⟨hq, hq'⟩ := reads_target ⟨c, hedge⟩
    exact List.mem_of_getElem? ((letter_eq_iff hq hq').mp (hasEdge_char.mp hedge).2)
  · intro hc
    obtain ⟨i, hi⟩ := List.mem_iff_getElem?.mp hc
    have hlt : i + 1 < 1 + e.leafCount := by
      have hlength := (List.getElem?_eq_some_iff.mp hi).1
      rw [length_characters] at hlength
      omega
    have hpos : 1 ≤ i + 1 := Nat.le_add_left 1 i
    obtain ⟨p, hread⟩ := exists_reads_to h hpos hlt
    exact ⟨p, i + 1, hasEdge_char.mpr ⟨reads_iff.mp hread, (letter_eq_iff hpos hlt).mpr hi⟩⟩

theorem exists_edge_epsilon_iff (hsolid : e.Solid) (hfilled : e.Filled) :
    (∃ p q, (ofExtent e).HasEdge p .epsilon q) ↔ .round ∈ e.signs := by
  have hwire := e.hasSilent_wire 1 [0] [] hsolid hfilled (List.cons_ne_nil _ _)
  have hnone : ¬ ([] : List StateId) ≠ [] := fun h => h rfl
  rw [or_iff_right hnone] at hwire
  rw [← hwire]
  constructor
  · intro h
    obtain ⟨p, q, hedge⟩ := h
    exact ⟨_, (hasEdge_ofExtent.mp hedge).2, rfl⟩
  · intro h
    obtain ⟨⟨p, symbol, q⟩, hmem, rfl⟩ := h
    have hlt := (e.epsilon_edge_wire 1 [0] [] p q hmem).1.2
    rw [Nat.add_comm] at hlt
    exact ⟨p, q, hasEdge_ofExtent.mpr ⟨hlt, hmem⟩⟩

end Automaton

/-! ## The alphabet of a pattern -/

open Pattern Extent

mutual

theorem Pattern.Expression.exists_ordinary : ∀ e : Expression, ∃ c ∈ e.spelling, IsOrdinary c
  | .one a => a.exists_ordinary
  | .more a _ => by
    obtain ⟨c, hc, hordinary⟩ := a.exists_ordinary
    exact ⟨c, List.mem_append_left _ hc, hordinary⟩

theorem Pattern.Alternative.exists_ordinary : ∀ a : Alternative, ∃ c ∈ a.spelling, IsOrdinary c
  | .one i => i.exists_ordinary
  | .more i _ => by
    obtain ⟨c, hc, hordinary⟩ := i.exists_ordinary
    exact ⟨c, List.mem_append_left _ hc, hordinary⟩

theorem Pattern.Item.exists_ordinary : ∀ i : Item, ∃ c ∈ i.spelling, IsOrdinary c
  | .sign c _ => ⟨c.val, .head _, c.property⟩
  | .group body _ => by
    obtain ⟨c, hc, hordinary⟩ := body.exists_ordinary
    exact ⟨c, .tail _ (List.mem_append_left _ hc), hordinary⟩

end

theorem mem_alphabet_compile {e : Expression} {symbol : Symbol} :
    symbol ∈ e.tree.compile.alphabet ↔ ∃ p q, (Automaton.ofExtent e.tree).HasEdge p symbol q := by
  rw [Extent.compile, (Automaton.legible_ofExtent e.tree).classify.mem_alphabet_iff]
  exact exists_congr fun p => exists_congr fun q =>
    Automaton.hasEdge_classify (Automaton.closed_ofExtent e.tree)

/-- The first row of the table shows the alphabet, if there is one. -/
theorem Automaton.table_of_alphabet {a : Automaton} (h : a.Closed) (hne : a.alphabet ≠ []) :
    ∃ rows, a.table? = some ("\n".intercalate
      (String.join (a.alphabet.map fun symbol => "\t'" ++ symbol.text ++ "'") :: rows)) := by
  have htable := table_of_closed h
  have hempty : a.alphabet.isEmpty = false := by simpa using hne
  unfold table? at htable ⊢
  cases hrows : a.states.toList.mapM (a.tableRow? a.alphabet) with
  | none => exact absurd htable (by simp [hrows])
  | some rows => exact ⟨rows, by simp [hrows, tableHeader, hempty]⟩

/-- How the alphabet of an automaton goes with the text of a pattern, and shows in its table. -/
structure Automaton.ColumnsFrom (a : Automaton) (text : List Char) : Prop where
  nodup : a.alphabet.Nodup
  char : ∀ c, .char c ∈ a.alphabet ↔ c ∈ text ∧ IsOrdinary c
  /-- A marker stands behind a closing bracket, once runs of markers are collapsed. -/
  epsilon : .epsilon ∈ a.alphabet ↔ [')', '^'] <:+: collapse text
  header : ∃ rows, a.table? = some ("\n".intercalate
    (String.join (a.alphabet.map fun symbol => "\t'" ++ symbol.text ++ "'") :: rows))

/-- **The columns of a pattern's table are its symbols.** -/
theorem compile_columnsFrom {limits : Limits} {pattern : String} {a : Automaton}
    (hne : pattern ≠ "") (h : compile limits pattern = .ok a) : a.ColumnsFrom pattern.toList := by
  obtain ⟨e, hspelling, -, rfl⟩ := expression_of_compile hne h
  have hchar : ∀ c, .char c ∈ e.tree.compile.alphabet ↔ c ∈ pattern.toList ∧ IsOrdinary c := by
    intro c
    rw [mem_alphabet_compile, Automaton.exists_edge_char_iff e.solid_tree, e.characters_tree,
      mem_letters, hspelling, mem_collapse]
  constructor
  case nodup => exact Arrival.nodup_distinct _
  case char => exact hchar
  case epsilon =>
    have hedge := Automaton.exists_edge_epsilon_iff e.solid_tree e.wellBuilt_tree.filled
    rw [mem_alphabet_compile, hedge, e.signs_tree, mem_round, hspelling]
  case header =>
    obtain ⟨c, hc, hordinary⟩ := e.exists_ordinary
    rw [hspelling, mem_collapse] at hc
    have hmem := (hchar c).mpr ⟨hc, hordinary⟩
    exact Automaton.table_of_alphabet (legible_of_compile h).closed (List.ne_nil_of_mem hmem)

/-- The character `ε` is a letter of its own, and looks like the column of the repeated group. -/
theorem compile_columnsFrom_epsilon :
    let tree : Extent := .concatenation [.repetition (.literal ['ε', 'a']), .leaf 'ε']
    "(εa)^^ε" ≠ "" ∧ compile {} "(εa)^^ε" = .ok tree.compile ∧
      tree.compile.ColumnsFrom "(εa)^^ε".toList := by
  intro tree
  have hne : "(εa)^^ε" ≠ "" := by decide
  have hcompile : compile {} "(εa)^^ε" = .ok tree.compile := rfl
  exact ⟨hne, hcompile, compile_columnsFrom hne hcompile⟩

end CaretAutomata

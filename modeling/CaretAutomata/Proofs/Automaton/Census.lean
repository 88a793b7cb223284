import Mathlib.Algebra.Order.BigOperators.Group.List
import Mathlib.Algebra.Order.Ring.Nat
import Mathlib.Tactic.Ring
import CaretAutomata.Proofs.Automaton.Legible
import CaretAutomata.Proofs.Automaton.Marks
import CaretAutomata.Proofs.Pattern.Signs

/-!
# One state for each letter

The automaton of a pattern has the start state and one state for each letter of the text, in the
order of the text, and what leads into a state says which letter it is: `NumberedBy` lists all this,
`compile_numberedBy` says that it holds. Most of it is known already of trees — where their edges
lead, and how their states are labelled — and text and tree have the same letters.

The bound on the number of edges needs one thing more. No two edges lead from one state to another
(`nodup_successors`): the ends of an edge say whether it consumes anything, and if it does, the
target says what. So there are no more edges than pairs of states, less those that end at the start
state and start there too.
-/

namespace CaretAutomata

/-! ## Edges of one state -/

theorem foldl_add_length {α β : Type} (f : α → List β) (l : List α) (n : Nat) :
    l.foldl (fun m x => m + (f x).length) n = n + (l.flatMap f).length := by
  induction l generalizing n with
  | nil => rfl
  | cons x rest ih =>
    rw [List.foldl_cons, ih, List.flatMap_cons, List.length_append, Nat.add_assoc]

/-- The targets of a map are listed once each if no two entries share one. -/
theorem nodup_flatMap_targets {transitions : List (Symbol × List StateId)}
    (hkeys : (transitions.map Prod.fst).Nodup) (htargets : ∀ entry ∈ transitions, entry.2.Nodup)
    (hsymbol : ∀ entry ∈ transitions, ∀ other ∈ transitions, ∀ q ∈ entry.2, q ∈ other.2 →
      entry.1 = other.1) : (transitions.flatMap Prod.snd).Nodup := by
  rw [List.nodup_flatMap]
  refine ⟨htargets, ?_⟩
  rw [List.Nodup, List.pairwise_map] at hkeys
  refine hkeys.imp_of_mem fun {entry other} hentry hother hne q hq hq' => ?_
  exact hne (hsymbol entry hentry other hother q hq hq')

namespace Automaton

theorem edgeCount_eq (a : Automaton) :
    a.edgeCount = (a.states.toList.map fun s => s.successors.length).sum := by
  unfold edgeCount
  simp only [foldl_add_length Prod.snd]
  have hstates := foldl_add_length State.successors a.states.toList 0
  rw [Nat.zero_add, List.length_flatMap] at hstates
  rw [← Array.foldl_toList]
  exact hstates

/-- A legible automaton gives the position of a state for its label. -/
theorem Legible.find?_label {a : Automaton} (h : a.Legible) {id : StateId} {s : State}
    (hs : a.states[id]? = some s) : a.find? s.label = some id := by
  obtain ⟨hlt, rfl⟩ := Array.getElem?_eq_some_iff.mp hs
  rw [find?, Array.findIdx?_eq_some_iff_getElem]
  refine ⟨hlt, beq_self_eq_true _, fun j hj heq => ?_⟩
  have hj' := Array.getElem?_eq_getElem (Nat.lt_trans hj hlt)
  rw [beq_iff_eq, h.label id _ hs, h.label j _ hj'] at heq
  exact absurd (defaultLabel_injective heq) (Nat.ne_of_lt hj)

theorem Legible.labels {a : Automaton} (h : a.Legible) :
    a.states.toList.map State.label = (List.range a.size).map defaultLabel := by
  apply List.ext_getElem?
  intro id
  rw [List.getElem?_map, List.getElem?_map, Array.getElem?_toList]
  cases hs : a.states[id]? with
  | none =>
    rw [List.getElem?_eq_none]
    · rfl
    · rw [List.length_range]
      exact Array.getElem?_eq_none_iff.mp hs
  | some s =>
    have hlt : id < a.size := (Array.getElem?_eq_some_iff.mp hs).1
    rw [List.getElem?_range hlt]
    exact congrArg some (h.label id s hs)

variable {e : Extent} {p q : StateId}

/-! ## The automaton of a tree -/

/-- The ends of an edge say what is written on it. -/
theorem symbol_eq_of_hasEdge {x y : Symbol} (hx : (ofExtent e).HasEdge p x q)
    (hy : (ofExtent e).HasEdge p y q) : x = y := by
  have hback : x = .epsilon ↔ y = .epsilon :=
    (hasEdge_epsilon_iff hx).trans (hasEdge_epsilon_iff hy).symm
  cases x with
  | epsilon => exact (hback.mp rfl).symm
  | char c =>
    cases y with
    | epsilon => exact absurd (hback.mpr rfl) (by simp)
    | char d => rw [← (hasEdge_char.mp hx).2, ← (hasEdge_char.mp hy).2]

/-- No two edges lead from one state to another. -/
theorem nodup_successors {s : State} (hs : (ofExtent e).states[p]? = some s) :
    s.successors.Nodup := by
  have hedge : ∀ entry ∈ s.transitions, ∀ q ∈ entry.2, (ofExtent e).HasEdge p entry.1 q :=
    fun entry hentry q hq => ⟨s, hs, mem_edges_iff.mpr ⟨entry.2, hentry, hq⟩⟩
  refine nodup_flatMap_targets ((legible_ofExtent e).keyed p s hs).nodup ?_ ?_
  · intro entry hentry
    obtain ⟨own, rfl⟩ := eq_of_getElem?_ofExtent hs
    obtain ⟨found, -, rfl⟩ := List.mem_map.mp hentry
    exact Arrival.nodup_distinct found.2
  · intro entry hentry other hother q hq hq'
    exact symbol_eq_of_hasEdge (hedge entry hentry q hq) (hedge other hother q hq')

theorem length_successors_le {s : State} (hs : (ofExtent e).states[p]? = some s) :
    s.successors.length ≤ e.leafCount + 1 := by
  have hstates : s.successors ⊆ List.range (e.leafCount + 1) := by
    intro q hq
    obtain ⟨symbol, hq⟩ := State.mem_successors.mp hq
    rw [List.mem_range, ← size_ofExtent]
    exact closed_ofExtent e p symbol q ⟨s, hs, hq⟩
  have hlength := (List.subperm_of_subset (nodup_successors hs) hstates).length_le
  rwa [List.length_range] at hlength

/-- Nothing leads from the start state to itself. -/
theorem length_successors_start_le {s : State} (hs : (ofExtent e).states[0]? = some s) :
    s.successors.length ≤ e.leafCount := by
  have hleaves : s.successors ⊆ List.range' 1 e.leafCount := by
    intro q hq
    obtain ⟨symbol, hq⟩ := State.mem_successors.mp hq
    have hedge : (ofExtent e).HasEdge 0 symbol q := ⟨s, hs, hq⟩
    rw [List.mem_range'_1]
    cases symbol with
    | epsilon => exact absurd (lt_of_hasEdge_epsilon hedge) (Nat.not_lt_zero q)
    | char c => exact Extent.reads_target ⟨c, hedge⟩
  have hlength := (List.subperm_of_subset (nodup_successors hs) hleaves).length_le
  rwa [List.length_range'] at hlength

theorem edgeCount_ofExtent_le (e : Extent) :
    (ofExtent e).edgeCount ≤ e.leafCount * e.leafCount + 2 * e.leafCount := by
  have hsize : (ofExtent e).states.toList.length = e.leafCount + 1 := size_ofExtent e
  have hat : ∀ id : StateId, (ofExtent e).states.toList[id]? = (ofExtent e).states[id]? :=
    fun _ => Array.getElem?_toList
  rw [edgeCount_eq]
  cases hstates : (ofExtent e).states.toList with
  | nil => exact Nat.zero_le _
  | cons start others =>
    rw [hstates] at hsize hat
    have hstart := length_successors_start_le (hat 0).symm
    have hothers : ∀ k ∈ others.map fun s => s.successors.length, k ≤ e.leafCount + 1 := by
      intro k hk
      obtain ⟨s, hs, rfl⟩ := List.mem_map.mp hk
      obtain ⟨i, hi⟩ := List.mem_iff_getElem?.mp hs
      exact length_successors_le ((hat (i + 1)).symm.trans hi)
    have hsum := List.sum_le_card_nsmul _ _ hothers
    rw [List.length_map, Nat.succ.inj hsize, Nat.nsmul_eq_mul] at hsum
    rw [List.map_cons, List.sum_cons]
    calc start.successors.length + (others.map fun s => s.successors.length).sum
      _ ≤ e.leafCount + e.leafCount * (e.leafCount + 1) := Nat.add_le_add hstart hsum
      _ = e.leafCount * e.leafCount + 2 * e.leafCount := by ring

theorem edgeCount_classify {a : Automaton} (h : a.Closed) : a.classify.edgeCount = a.edgeCount := by
  have hsuccessors : a.classify.states.toList.map (fun s => s.successors.length) =
      a.states.toList.map fun s => s.successors.length := by
    apply List.ext_getElem?
    intro id
    rw [List.getElem?_map, List.getElem?_map, Array.getElem?_toList, Array.getElem?_toList]
    cases hs : a.classify.states[id]? with
    | none =>
      have hle : a.classify.size ≤ id := Array.getElem?_eq_none_iff.mp hs
      rw [size_classify] at hle
      rw [Array.getElem?_eq_none_iff.mpr hle]
    | some s =>
      obtain ⟨old, flag, hold, rfl, -⟩ := (getElem?_classify h).mp hs
      rw [hold]
      rfl
  rw [edgeCount_eq, edgeCount_eq, hsuccessors]

/-! ## The automaton of a pattern -/

open Pattern Extent

/-- How the states and edges of an automaton go with the letters of a text. -/
structure NumberedBy (a : Automaton) (text : List Char) : Prop where
  /-- Behind the start state there is one state for each letter. -/
  labels : a.states.toList.map State.label =
    "s" :: (List.range (letters text).length).map fun i => "q" ++ toString i
  find : ∀ (id : StateId) (s : State), a.states[id]? = some s → a.find? s.label = some id
  closed : a.Closed
  /-- What is read into a state is its letter, and nothing is read into the start state. -/
  letter : ∀ p c q, a.HasEdge p (.char c) q → 0 < q ∧ (letters text)[q - 1]? = some c
  forward : ∀ p c q, a.HasEdge p (.char c) q → p < q ∨ p = q
  /-- A letter leads to itself exactly if a marker stands directly behind it. -/
  loop : ∀ q, (∃ c, a.HasEdge q (.char c) q) ↔
    ∃ before c behind, text = before ++ c :: '^' :: behind ∧ IsOrdinary c ∧
      q = (letters before).length + 1
  back : ∀ p q, a.HasEdge p .epsilon q → q < p
  edgeCount : a.edgeCount ≤
    (letters text).length * (letters text).length + 2 * (letters text).length

theorem exists_loop_iff {e : Expression} {q : StateId} :
    (∃ c, (ofExtent e.tree).HasEdge q (.char c) q) ↔
      ∃ before c behind, e.spelling = before ++ c :: '^' :: behind ∧ IsOrdinary c ∧
        q = (letters before).length + 1 := by
  show (ofExtent e.tree).Reads q q ↔ _
  cases q with
  | zero =>
    constructor
    · intro h
      exact absurd (reads_target h).1 (by decide)
    · intro h
      obtain ⟨before, c, behind, -, -, hzero⟩ := h
      exact absurd hzero (by simp)
  | succ i =>
    have hloop := e.tree.loopsOn_signs 1 i
    rw [e.signs_tree, Nat.add_comm 1 i] at hloop
    rw [reads_leaf (Nat.le_add_left 1 i), hloop]
    constructor
    · intro h
      obtain ⟨c, hc⟩ := h
      obtain ⟨before, behind, htext, hordinary, hlength⟩ := getElem?_letters.mp hc
      exact ⟨before, c, behind, htext, hordinary, by rw [hlength]⟩
    · intro h
      obtain ⟨before, c, behind, htext, hordinary, hlength⟩ := h
      exact ⟨c, getElem?_letters.mpr ⟨before, behind, htext, hordinary, (Nat.succ.inj hlength).symm⟩⟩

theorem leafCount_tree (e : Expression) : e.tree.leafCount = (letters e.spelling).length := by
  rw [← length_characters, e.characters_tree]

theorem numberedBy_tree (e : Expression) : e.tree.compile.NumberedBy e.spelling := by
  have hclosed := closed_ofExtent e.tree
  have hlegible : e.tree.compile.Legible := (legible_ofExtent e.tree).classify
  have hedge : ∀ {p symbol q}, e.tree.compile.HasEdge p symbol q ↔
      (ofExtent e.tree).HasEdge p symbol q := hasEdge_classify hclosed
  constructor
  case labels =>
    have hsize : e.tree.compile.size = (letters e.spelling).length + 1 := by
      rw [Extent.compile, size_classify, size_ofExtent, leafCount_tree]
    rw [hlegible.labels, hsize, List.range_succ_eq_map, List.map_cons, List.map_map]
    rfl
  case find => exact fun id s hs => hlegible.find?_label hs
  case closed => exact hlegible.closed
  case letter =>
    intro p c q h
    have h := hedge.mp h
    obtain ⟨hpos, hlt⟩ := reads_target ⟨c, h⟩
    refine ⟨hpos, ?_⟩
    rw [← e.characters_tree]
    exact (letter_eq_iff hpos hlt).mp (hasEdge_char.mp h).2
  case forward =>
    intro p c q h
    exact Nat.lt_or_eq_of_le (le_of_hasEdge_char (hedge.mp h))
  case loop =>
    intro q
    rw [← exists_loop_iff]
    exact exists_congr fun c => hedge
  case back => exact fun p q h => lt_of_hasEdge_epsilon (hedge.mp h)
  case edgeCount =>
    rw [Extent.compile, edgeCount_classify hclosed, ← leafCount_tree]
    exact edgeCount_ofExtent_le e.tree

end Automaton

open Pattern

/-- **The states of a pattern are the letters of its text.** -/
theorem compile_numberedBy {limits : Limits} {pattern : String} {a : Automaton}
    (hne : pattern ≠ "") (h : compile limits pattern = .ok a) :
    a.NumberedBy (collapse pattern.toList) := by
  obtain ⟨e, hspelling, -, rfl⟩ := expression_of_compile hne h
  rw [← hspelling]
  exact Automaton.numberedBy_tree e

/-- A loop of its own and a run of markers on the same letter, and one loop around both. -/
theorem compile_numberedBy_loops :
    let tree : Extent := .repetition (.union
      [.concatenation [.leaf 'b', .repetition (.leaf 'a')], .concatenation [.repetition (.leaf 'a')]])
    "(ba^|a^^)^" ≠ "" ∧ compile {} "(ba^|a^^)^" = .ok tree.compile ∧
      tree.compile.NumberedBy "(ba^|a^)^".toList := by
  intro tree
  have hne : "(ba^|a^^)^" ≠ "" := by decide
  have hcompile : compile {} "(ba^|a^^)^" = .ok tree.compile := rfl
  have hcollapse : collapse "(ba^|a^^)^".toList = "(ba^|a^)^".toList := by decide
  exact ⟨hne, hcompile, hcollapse ▸ compile_numberedBy hne hcompile⟩

end CaretAutomata

import CaretAutomata.Proofs.Automaton.Reachability

/-!
# Runs

A run spells a word: it takes an edge on each character in turn, and edges that consume nothing
whenever it likes. `Run` is that, edge by edge. For every argument about what a run can do it is the
wrong grain, because nothing is known of the silent edges in between — what counts is the state that
each character is read *into*. `Trail` keeps just these states, `Step` is what lies between two of
them, and `run_iff_trail` translates: where the character of an edge is fixed by its target, a run
is a trail with silent edges behind it.
-/

namespace CaretAutomata

open Relation

/-- From `p` by steps of `N` to each of the states of a list in turn, the last of which is `r`. -/
def Trail (N : StateId → StateId → Prop) : (p : StateId) → List StateId → (r : StateId) → Prop
  | p, [], r => p = r
  | p, q :: rest, r => N p q ∧ Trail N q rest r

namespace Trail

variable {N N' : StateId → StateId → Prop}

theorem mono (hN : ∀ p q, N p q → N' p q) : ∀ {qs : List StateId} {p r : StateId},
    Trail N p qs r → Trail N' p qs r
  | [], _, _, h => h
  | _ :: _, _, _, h => ⟨hN _ _ h.1, h.2.mono hN⟩

theorem append {u v : List StateId} {p r : StateId} :
    Trail N p (u ++ v) r ↔ ∃ q, Trail N p u q ∧ Trail N q v r := by
  induction u generalizing p with
  | nil =>
    constructor
    · exact fun h => ⟨p, rfl, h⟩
    · intro h
      obtain ⟨q, rfl, h⟩ := h
      exact h
  | cons first u ih =>
    constructor
    · intro h
      obtain ⟨q, hu, hv⟩ := ih.mp h.2
      exact ⟨q, ⟨h.1, hu⟩, hv⟩
    · intro h
      obtain ⟨q, hu, hv⟩ := h
      exact ⟨hu.1, ih.mpr ⟨q, hu.2, hv⟩⟩

/-- The states fix where a trail ends, whatever its steps are. -/
theorem end_unique : ∀ {qs : List StateId} {p r r' : StateId}, Trail N p qs r → Trail N' p qs r' →
    r = r'
  | [], _, _, _, h, h' => h.symm.trans h'
  | _ :: _, _, _, _, h, h' => h.2.end_unique h'.2

/-- What holds of the target of every step holds of all states of a trail. -/
theorem forall_mem {A : StateId → Prop} (hN : ∀ p q, N p q → A q) :
    ∀ {qs : List StateId} {p r : StateId}, Trail N p qs r → ∀ q ∈ qs, A q
  | [], _, _, _, q, hq => absurd hq (by simp)
  | _ :: _, _, _, h, q, hq => by
    rcases List.mem_cons.mp hq with rfl | hq
    · exact hN _ _ h.1
    · exact h.2.forall_mem hN q hq

end Trail

namespace Automaton

/-- A run from one state to another that spells a word. -/
inductive Run (a : Automaton) : StateId → List Char → StateId → Prop where
  | nil (p : StateId) : Run a p [] p
  | epsilon {p q r : StateId} {w : List Char} :
    a.HasEdge p .epsilon q → Run a q w r → Run a p w r
  | char {p q r : StateId} {c : Char} {w : List Char} :
    a.HasEdge p (.char c) q → Run a q w r → Run a p (c :: w) r

/-- Any number of edges that consume nothing lead from `p` to `q`. -/
abbrev Silent (a : Automaton) : StateId → StateId → Prop :=
  ReflTransGen fun p q => a.HasEdge p .epsilon q

/-- An edge on some character leads from `p` to `q`. -/
def Reads (a : Automaton) (p q : StateId) : Prop := ∃ c, a.HasEdge p (.char c) q

/-- From `p`, a character is read into `q`, with silent edges before it. -/
def Step (a : Automaton) (p q : StateId) : Prop := ∃ r, a.Silent p r ∧ a.Reads r q

variable {a : Automaton}

theorem Reads.step {p q : StateId} (h : a.Reads p q) : a.Step p q := ⟨p, .refl, h⟩

theorem HasEdge.lt {p q : StateId} {symbol : Symbol} (h : a.HasEdge p symbol q) : p < a.size := by
  obtain ⟨s, hs, _⟩ := h
  exact (Array.getElem?_eq_some_iff.mp hs).1

/-- Whoever goes on silently exists, or has nowhere to go. -/
theorem Silent.eq_or_lt {p r : StateId} (h : a.Silent p r) : p = r ∨ p < a.size := by
  cases h using ReflTransGen.head_induction_on with
  | refl => exact .inl rfl
  | head hedge _ => exact .inr hedge.lt

theorem Step.lt {p q : StateId} (h : a.Step p q) : p < a.size := by
  obtain ⟨r, hsilent, c, hedge⟩ := h
  rcases hsilent.eq_or_lt with rfl | hlt
  · exact hedge.lt
  · exact hlt

theorem Run.of_silent {p q r : StateId} {w : List Char} (h : a.Silent p q) (hrun : a.Run q w r) :
    a.Run p w r := by
  induction h using ReflTransGen.head_induction_on with
  | refl => exact hrun
  | head hedge _ ih => exact .epsilon hedge ih

/-- A silent edge in front of a trail is part of its first step, or of what lies behind it. -/
theorem exists_trail_of_silent {p q y r : StateId} {qs : List StateId}
    (hedge : a.HasEdge p .epsilon q) (htrail : Trail a.Step q qs y) (hsilent : a.Silent y r) :
    ∃ y', Trail a.Step p qs y' ∧ a.Silent y' r := by
  cases qs with
  | nil =>
    obtain rfl : q = y := htrail
    exact ⟨p, rfl, .head hedge hsilent⟩
  | cons first rest =>
    obtain ⟨⟨r', hr', hreads⟩, hrest⟩ := htrail
    exact ⟨y, ⟨⟨r', .head hedge hr', hreads⟩, hrest⟩, hsilent⟩

/-- **A run is a trail**, once the character of an edge can be told from its target. -/
theorem run_iff_trail {letter : StateId → Char}
    (hletter : ∀ p c q, a.HasEdge p (.char c) q → letter q = c) {p r : StateId} {w : List Char} :
    a.Run p w r ↔ ∃ qs y, qs.map letter = w ∧ Trail a.Step p qs y ∧ a.Silent y r := by
  constructor
  · -- an edge on a character is a step; a silent one moves into the step behind it
    intro hrun
    induction hrun with
    | nil p => exact ⟨[], p, rfl, rfl, .refl⟩
    | epsilon hedge _ ih =>
      obtain ⟨qs, y, hw, htrail, hsilent⟩ := ih
      obtain ⟨y', htrail', hsilent'⟩ := exists_trail_of_silent hedge htrail hsilent
      exact ⟨qs, y', hw, htrail', hsilent'⟩
    | @char p q r c w hedge _ ih =>
      obtain ⟨qs, y, hw, htrail, hsilent⟩ := ih
      have hstep : a.Step p q := Reads.step ⟨c, hedge⟩
      refine ⟨q :: qs, y, ?_, ⟨hstep, htrail⟩, hsilent⟩
      rw [List.map_cons, hletter p c q hedge, hw]
  · intro h
    obtain ⟨qs, y, rfl, htrail, hsilent⟩ := h
    induction qs generalizing p with
    | nil =>
      obtain rfl : p = y := htrail
      exact .of_silent hsilent (.nil r)
    | cons q rest ih =>
      obtain ⟨⟨r', hr', c, hedge⟩, hrest⟩ := htrail
      obtain rfl := hletter r' c q hedge
      exact .of_silent hr' (.char hedge (ih hrest))

end Automaton

end CaretAutomata

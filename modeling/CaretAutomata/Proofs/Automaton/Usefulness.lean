import CaretAutomata.Proofs.Automaton.Legible
import CaretAutomata.Proofs.Automaton.Marks
import CaretAutomata.Proofs.Automaton.ReachableSets
import CaretAutomata.Proofs.Graph.Numbering

/-!
# Every state is of use

The wiring says nothing of acceptance, and the rules for acceptance nothing of wiring, but no state
of a pattern's automaton is left without a marked one ahead of it. From each state one comes to a
region that nothing leaves. If it is a single state, that one is marked. If not, there is a way round
in it, a way round has to lead back somewhere, and in a legible automaton what leads back consumes
nothing: it enters a state of the region, and by the third rule this state is marked
(`Legible.exists_shouldAccept`).
-/

namespace CaretAutomata

open Relation

namespace Automaton

variable {a : Automaton} {p q : StateId}

theorem exists_reaches_bottom (h : a.Closed) (hp : p < a.size) :
    ∃ q, a.Reaches p q ∧ ∀ r, a.Reaches q r → a.Reaches r q := by
  rw [← size_graph] at hp
  obtain ⟨q, hq, hbottom⟩ := Graph.exists_reach_bottom h.graph hp
  simp only [reach_graph] at hq hbottom
  exact ⟨q, hq, hbottom⟩

/-- A way that ends before the state where it started has an edge that leads back. -/
theorem exists_descent (h : a.Reaches p q) (hlt : q < p) :
    ∃ x y, a.Reaches p x ∧ a.Leads x y ∧ y < x := by
  induction h with
  | refl => exact absurd hlt (Nat.lt_irrefl p)
  | @tail x y hpx hedge ih =>
    by_cases hx : x < p
    · exact ih hx
    · exact ⟨x, y, hpx, hedge, Nat.lt_of_lt_of_le hlt (Nat.not_lt.mp hx)⟩

/-- In a region that nothing leaves, of more states than one, some edge leads back. -/
theorem exists_descent_of_bottom (hbottom : ∀ r, a.Reaches p r → a.Reaches r p)
    (hedge : a.Leads p q) (hne : q ≠ p) : ∃ x y, a.Reaches p x ∧ a.Leads x y ∧ y < x := by
  cases Nat.lt_or_gt_of_ne hne with
  | inl hlt => exact ⟨p, q, .refl, hedge, hlt⟩
  | inr hlt =>
    obtain ⟨x, y, hqx, hxy, hdown⟩ := exists_descent (hbottom q (.single hedge)) hlt
    exact ⟨x, y, .head hedge hqx, hxy, hdown⟩

/-- **From every state of a legible automaton, one that accepts can be reached.** -/
theorem Legible.exists_shouldAccept (h : a.Legible) (hp : p < a.size) :
    ∃ q, a.Reaches p q ∧ a.ShouldAccept q := by
  obtain ⟨w, hpw, hbottom⟩ := exists_reaches_bottom h.closed hp
  by_cases hfinal : a.Final w
  · exact ⟨w, hpw, .inr (.inl (reaches_self_iff.mpr hfinal))⟩
  · unfold Final at hfinal
    simp only [not_forall] at hfinal
    obtain ⟨q, hedge, hne⟩ := hfinal
    obtain ⟨x, y, hwx, ⟨symbol, hxy⟩, hdown⟩ := exists_descent_of_bottom hbottom hedge hne
    have hsilent : symbol = .epsilon := (h.back x symbol y hxy).mpr hdown
    subst hsilent
    have hwy : a.Reaches w y := hwx.tail ⟨.epsilon, hxy⟩
    -- whatever `y` reaches leads back over `w`
    have hback : ∀ r, a.Reaches y r → a.Reaches r y := by
      intro r hyr
      exact (hbottom r (hwy.trans hyr)).trans hwy
    exact ⟨y, hpw.trans hwy, .inr (.inr ⟨⟨x, hxy⟩, reaches_same_iff.mpr hback⟩)⟩

end Automaton

/-! ## The automaton of a tree -/

open Automaton

namespace Extent

variable {e : Extent} {p q : StateId}

theorem size_compile (e : Extent) : e.compile.size = (ofExtent e).size := size_classify _

theorem reaches_compile : e.compile.Reaches p q ↔ (ofExtent e).Reaches p q := by
  unfold Extent.compile Reaches
  rw [leads_classify (closed_ofExtent e)]

/-- The start state reaches every other. -/
theorem reaches_start (h : e.Solid) (hp : p < e.compile.size) : e.compile.Reaches 0 p := by
  rw [size_compile] at hp
  obtain ⟨u, htrail⟩ := e.exists_trail_to h hp
  exact reaches_compile.mpr htrail.reaches

theorem exists_marked (hp : p < e.compile.size) :
    ∃ m, e.compile.Marked m ∧ e.compile.Reaches p m := by
  rw [size_compile] at hp
  obtain ⟨m, hreach, haccept⟩ := (legible_ofExtent e).exists_shouldAccept hp
  have hm : m < (ofExtent e).size := (closed_ofExtent e).lt_of_reaches hp hreach
  have hmarked : e.compile.Marked m := (marked_classify (closed_ofExtent e)).mpr ⟨hm, haccept⟩
  exact ⟨m, hmarked, reaches_compile.mpr hreach⟩

end Extent

/-! ## Patterns -/

/-- **No state of a pattern's automaton is useless.** Each of them can be reached from the start
state, and from each of them a state that is marked can be reached; so the reachable set of the start
state, as it is computed, holds all states, that of any state holds a marked one, and some state is
marked. -/
theorem compile_no_useless_state {limits : Pattern.Limits} {pattern : String} {a : Automaton}
    (hne : pattern ≠ "") (h : compile limits pattern = .ok a) :
    (∀ id, a.Reaches 0 id ↔ id < a.size) ∧ a.reachable? 0 = some (List.range a.size) ∧
    (∀ id < a.size, ∃ m, a.Marked m ∧ a.Reaches id m ∧
      ∃ reached, a.reachable? id = some reached ∧ m ∈ reached) ∧
    ∃ m, a.Marked m := by
  have hclosed := (legible_of_compile h).closed
  have hpos := size_pos_of_compile h
  obtain ⟨e, -, -, rfl⟩ := expression_of_compile hne h
  have hstart : ∀ id, e.tree.compile.Reaches 0 id ↔ id < e.tree.compile.size := by
    intro id
    exact ⟨hclosed.lt_of_reaches hpos, Extent.reaches_start e.solid_tree⟩
  refine ⟨hstart, ?_, fun id hid => ?_, ?_⟩
  · obtain ⟨reached, hanswer, hreached⟩ := reachable_of_closed hclosed hpos
    rw [hanswer, List.filter_eq_self.mpr]
    intro id hid
    exact (hreached id).mpr ((hstart id).mpr (List.mem_range.mp hid))
  · obtain ⟨m, hmark, hreach⟩ := Extent.exists_marked hid
    obtain ⟨reached, hanswer, hreached⟩ := reachable_of_closed hclosed hid
    refine ⟨m, hmark, hreach, _, hanswer, List.mem_filter.mpr ⟨?_, (hreached m).mpr hreach⟩⟩
    exact List.mem_range.mpr (hclosed.lt_of_reaches hid hreach)
  · obtain ⟨m, hmark, -⟩ := Extent.exists_marked hpos
    exact ⟨m, hmark⟩

/-- The tree of `x(ab^)^`. -/
def loopBehindLetter : Extent :=
  .concatenation [.leaf 'x', .repetition (.concatenation [.leaf 'a', .repetition (.leaf 'b')])]

/-- Behind `x` nothing leaves the circle, and of its states the entry alone is marked. -/
theorem compile_no_useless_state_loopBehindLetter : "x(ab^)^" ≠ "" ∧
    compile {} "x(ab^)^" = .ok loopBehindLetter.compile ∧
    (∀ id, loopBehindLetter.compile.Reaches 0 id ↔ id < loopBehindLetter.compile.size) ∧
    loopBehindLetter.compile.reachable? 0 =
      some (List.range loopBehindLetter.compile.size) ∧
    (∀ id < loopBehindLetter.compile.size, ∃ m, loopBehindLetter.compile.Marked m ∧
      loopBehindLetter.compile.Reaches id m ∧
      ∃ reached, loopBehindLetter.compile.reachable? id = some reached ∧ m ∈ reached) ∧
    ∃ m, loopBehindLetter.compile.Marked m := by
  have hne : "x(ab^)^" ≠ "" := by decide
  have hcompile : compile {} "x(ab^)^" = .ok loopBehindLetter.compile := rfl
  exact ⟨hne, hcompile, compile_no_useless_state hne hcompile⟩

end CaretAutomata

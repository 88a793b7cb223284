import CaretAutomata.Proofs.Automaton.Acceptance
import CaretAutomata.Proofs.Automaton.Cut
import CaretAutomata.Proofs.Automaton.Recognition
import CaretAutomata.Proofs.Extent.Plain
import CaretAutomata.Proofs.Pattern.Language
import CaretAutomata.Rendering

/-!
# Marks and exits

Two things claim to say where a pattern is consumed. The wiring ends with its exits, and forgets
them; the rules for acceptance mark states of the finished automaton, and know nothing of exits.

`marked_compile_iff` says what the marks are in terms of the exits. From every state some exit can
be reached (`exists_reaches_exit`), so a state from which nothing leads elsewhere is an exit itself,
and a region that nothing leaves is one to which all its exits lead back. Without repetitions only
the first case is left, and the marks are the exits. With them the second one marks the entry of a
repeated group, and that is an exit only if what stands behind the group can be left out: in
`(a(b)^c)^` the state behind `a` is the entry of `(b)^`, everything leads back to it, and it is
marked with `c` still to come. The start state alone is never marked in this way
(`mem_exits_of_marked_start`).
-/

namespace CaretAutomata

open Relation Positions

theorem Trail.reaches {a : Automaton} : ∀ {qs : List StateId} {p r : StateId},
    Trail a.Reads p qs r → a.Reaches p r
  | [], p, r, h => by
    obtain rfl : p = r := h
    exact .refl
  | _ :: _, _, _, h => by
    obtain ⟨⟨c, hedge⟩, hrest⟩ := h
    exact .head ⟨.char c, hedge⟩ hrest.reaches

namespace Automaton

variable {a : Automaton} {p q : StateId}

/-- Nothing leads from the state to another one. -/
def Final (a : Automaton) (id : StateId) : Prop := ∀ q, a.Leads id q → q = id

/-- The state is entered without consuming anything, and every exit within its reach leads back to
it. -/
def Entry (a : Automaton) (exits : List StateId) (id : StateId) : Prop :=
  (∃ p, a.HasEdge p .epsilon id) ∧ ∀ x ∈ exits, a.Reaches id x → a.Reaches x id

theorem final_classify (h : a.Closed) {id : StateId} : a.classify.Final id ↔ a.Final id := by
  unfold Final
  rw [leads_classify h]

theorem entry_classify (h : a.Closed) {exits : List StateId} {id : StateId} :
    a.classify.Entry exits id ↔ a.Entry exits id := by
  unfold Entry Reaches
  rw [leads_classify h]
  exact and_congr_left fun _ => exists_congr fun _ => hasEdge_classify h

/-- A run from the start state to a marked state spells the word. -/
def Accepts (a : Automaton) (w : List Char) : Prop := ∃ id, a.Marked id ∧ a.Run 0 w id

theorem Run.mono {b : Automaton} (h : ∀ p symbol q, a.HasEdge p symbol q → b.HasEdge p symbol q)
    {w : List Char} (hrun : a.Run p w q) : b.Run p w q := by
  induction hrun with
  | nil p => exact .nil p
  | epsilon hedge _ ih => exact .epsilon (h _ _ _ hedge) ih
  | char hedge _ ih => exact .char (h _ _ _ hedge) ih

theorem run_classify (h : a.Closed) {w : List Char} : a.classify.Run p w q ↔ a.Run p w q :=
  ⟨.mono fun _ _ _ => (hasEdge_classify h).mp, .mono fun _ _ _ => (hasEdge_classify h).mpr⟩

end Automaton

namespace Extent

open Automaton

variable {e : Extent} {id : StateId}

/-! ## Exits are within reach -/

theorem exists_reaches_exit (h : e.Solid) (hid : id < (ofExtent e).size) :
    ∃ x ∈ e.wiring.exits, (ofExtent e).Reaches id x := by
  cases id with
  | zero =>
    obtain ⟨w, hw⟩ := exists_accepts e 1 h
    obtain ⟨x, hx, htrail⟩ := accepts_follows_iff.mp hw
    exact ⟨x, hx, htrail.reaches⟩
  | succ i =>
    rw [size_ofExtent, Nat.add_comm] at hid
    obtain ⟨_, x, hx, htrail⟩ := exists_trail_from h (Nat.le_add_left 1 i) hid
    exact ⟨x, hx, htrail.reaches⟩

theorem exit_lt {x : StateId} (hx : x ∈ e.wiring.exits) : x < (ofExtent e).size := by
  rw [size_ofExtent, Nat.add_comm]
  cases mem_exits_wiring.mp hx with
  | inl hlast => exact ((e.within_positions 1).last x hlast).2
  | inr hstart =>
    rw [hstart.2]
    exact Nat.lt_of_lt_of_le Nat.one_pos (Nat.le_add_right 1 _)

/-! ## The marks of a tree's automaton -/

theorem mem_exits_of_final (h : e.Solid) (hid : id < (ofExtent e).size) (hfinal : (ofExtent e).Final id) :
    id ∈ e.wiring.exits := by
  obtain ⟨x, hx, hreach⟩ := exists_reaches_exit h hid
  have heq : x = id := (reaches_self_iff.mpr hfinal x).mp hreach
  exact heq ▸ hx

/-- No edge leaves the region of a state when the exits in it lead back to it. -/
theorem reaches_back_iff (h : e.Solid) (hid : id < (ofExtent e).size) :
    (∀ p, (ofExtent e).Reaches id p → (ofExtent e).Reaches p id) ↔
      ∀ x ∈ e.wiring.exits, (ofExtent e).Reaches id x → (ofExtent e).Reaches x id := by
  constructor
  · exact fun hback x _ => hback x
  · intro hback p hp
    -- behind `p` there is an exit, and from that one the way leads back
    have hlt := (closed_ofExtent e).lt_of_reaches hid hp
    obtain ⟨x, hx, hreach⟩ := exists_reaches_exit h hlt
    exact hreach.trans (hback x hx (hp.trans hreach))

/-- **The marks, in terms of the exits.** -/
theorem marked_compile_iff (h : e.Solid) :
    e.compile.Marked id ↔
      (id ∈ e.wiring.exits ∧ (ofExtent e).Final id) ∨ (ofExtent e).Entry e.wiring.exits id := by
  rw [Extent.compile, marked_classify (closed_ofExtent e)]
  constructor
  · intro hid
    obtain ⟨hlt, haccept⟩ := hid
    rcases haccept with hnone | hself | ⟨hentry, hsame⟩
    · have hfinal : (ofExtent e).Final id := fun q hq => absurd hq.choose_spec (hnone _ q)
      exact .inl ⟨mem_exits_of_final h hlt hfinal, hfinal⟩
    · have hfinal : (ofExtent e).Final id := reaches_self_iff.mp hself
      exact .inl ⟨mem_exits_of_final h hlt hfinal, hfinal⟩
    · exact .inr ⟨hentry, (reaches_back_iff h hlt).mp (reaches_same_iff.mp hsame)⟩
  · intro hid
    cases hid with
    | inl hexit => exact ⟨exit_lt hexit.1, .inr (.inl (reaches_self_iff.mpr hexit.2))⟩
    | inr hentry =>
      obtain ⟨⟨p, hedge⟩, hback⟩ := hentry
      have hlt : id < (ofExtent e).size := closed_ofExtent e p .epsilon id hedge
      refine ⟨hlt, .inr (.inr ⟨⟨p, hedge⟩, reaches_same_iff.mpr ?_⟩)⟩
      exact (reaches_back_iff h hlt).mpr hback

/-- The start state is not marked with something still to come. -/
theorem mem_exits_of_marked_start (h : e.Solid) (hmarked : e.compile.Marked 0) :
    0 ∈ e.wiring.exits := by
  cases (marked_compile_iff h).mp hmarked with
  | inl hexit => exact hexit.1
  | inr hentry =>
    by_contra hnone
    have hlt : 0 < (ofExtent e).size := by
      rw [size_ofExtent]
      exact Nat.succ_pos _
    obtain ⟨x, hx, hreach⟩ := exists_reaches_exit h hlt
    exact not_reaches_start hnone hx (hentry.2 x hx hreach)

/-! ## Without repetitions -/

/-- Nothing leads back and nothing follows an exit, so the marks are the exits. -/
theorem marked_compile_iff_of_plain (h : e.Solid) (hplain : e.Plain) :
    e.compile.Marked id ↔ id ∈ e.wiring.exits := by
  rw [marked_compile_iff h]
  constructor
  · intro hmarked
    cases hmarked with
    | inl hexit => exact hexit.1
    | inr hentry =>
      obtain ⟨⟨p, hedge⟩, _⟩ := hentry
      exact absurd hedge (not_epsilon_edge_of_plain hplain)
  · intro hexit
    refine .inl ⟨hexit, fun q hleads => ?_⟩
    have honce := once_positions e 1 hplain
    have hlast : id ∈ (e.positions 1).last := by
      cases mem_exits_wiring.mp hexit with
      | inl hlast => exact hlast
      | inr hskip => exact absurd (honce.not_nullable.symm.trans hskip.1) (by simp)
    obtain ⟨symbol, hedge⟩ := hleads
    cases symbol with
    | epsilon => exact absurd hedge (not_epsilon_edge_of_plain hplain)
    | char c =>
      have hread := (reads_leaf ((e.within_positions 1).last id hlast).1).mp ⟨c, hedge⟩
      exact absurd hlast (honce.last id q hread)

theorem recognises_iff_of_plain (hplain : e.Plain) {w : List Char} :
    e.Recognises w ↔ w ∈ e.language := by
  have hrounds : e.RoundsTaken := by
    intro p q hround
    rw [(once_positions e 1 hplain).no_round] at hround
    exact absurd hround (by simp)
  have hsilent : ∀ {p r : StateId}, (ofExtent e).Silent p r → p = r := by
    intro p r hreach
    cases hreach using ReflTransGen.head_induction_on with
    | refl => rfl
    | head hedge _ => exact absurd hedge (not_epsilon_edge_of_plain hplain)
  have hstays : e.StaysInside := by
    constructor
    · intro p q hstep
      obtain ⟨r, hr, hread⟩ := hstep
      exact .inl (hsilent hr ▸ hread)
    · intro p x hx hr
      exact hsilent hr ▸ hx
  rw [recognises_iff, mem_language_iff]
  refine exists_congr fun qs => and_congr_right fun _ => ?_
  exact ⟨mem_traces_of_visits hstays, visits_of_mem_traces hrounds⟩

theorem accepts_compile_iff (h : ∀ id, e.compile.Marked id ↔ id ∈ e.wiring.exits) {w : List Char} :
    e.compile.Accepts w ↔ e.Recognises w := by
  have hrun : ∀ id, e.compile.Run 0 w id ↔ (ofExtent e).Run 0 w id := fun _ =>
    run_classify (closed_ofExtent e)
  exact exists_congr fun id => and_congr (h id) (hrun id)

end Extent

/-! ## Patterns -/

open Pattern

/-- What compiles is an expression, its runs of markers collapsed. -/
theorem expression_of_compile {limits : Limits} {pattern : String} {a : Automaton}
    (hne : pattern ≠ "") (h : compile limits pattern = .ok a) :
    ∃ e : Expression, e.spelling = collapse pattern.toList ∧
      parse limits pattern = .ok e.tree ∧ a = e.tree.compile := by
  obtain ⟨t, hparse, rfl⟩ := parse_of_compile hne h
  obtain ⟨e, hspelling, rfl⟩ := expression_of_parse hparse
  exact ⟨e, hspelling, hparse, rfl⟩

/-- **Without markers, the automaton accepts the words of the pattern**: the marked states are the
exits, and the start state is none of them. -/
theorem compile_accepts_language {limits : Limits} {pattern : String} {a : Automaton}
    (hne : pattern ≠ "") (hplain : '^' ∉ pattern.toList) (h : compile limits pattern = .ok a) :
    ∃ e : Expression, e.spelling = pattern.toList ∧ parse limits pattern = .ok e.tree ∧
      (∀ w, a.Accepts w ↔ w ∈ e.language) ∧
      (∀ id, a.Marked id ↔ id ∈ e.tree.wiring.exits) ∧ ¬ a.Marked 0 := by
  obtain ⟨e, hspelling, hparse, rfl⟩ := expression_of_compile hne h
  rw [collapse_of_not_mem hplain] at hspelling
  have htree : e.tree.Plain := Expression.plain_tree (hspelling ▸ hplain)
  have hmarked : ∀ id, e.tree.compile.Marked id ↔ id ∈ e.tree.wiring.exits := fun _ =>
    Extent.marked_compile_iff_of_plain e.solid_tree htree
  refine ⟨e, hspelling, hparse, fun w => ?_, hmarked, fun hstart => ?_⟩
  · rw [Extent.accepts_compile_iff hmarked, Extent.recognises_iff_of_plain htree, e.language_tree]
  · have honce := Extent.once_positions e.tree 1 htree
    cases Automaton.mem_exits_wiring.mp ((hmarked 0).mp hstart) with
    | inl hlast => exact absurd ((e.tree.within_positions 1).last 0 hlast).1 (by decide)
    | inr hskip => exact absurd (honce.not_nullable.symm.trans hskip.1) (by simp)

/-- The tree of `a(b|cd)`. -/
def branching : Extent :=
  .concatenation [.leaf 'a', .union [.concatenation [.leaf 'b'], .literal ['c', 'd']]]

theorem parse_branching : parse {} "a(b|cd)" = .ok branching := rfl

theorem compile_accepts_language_branching : "a(b|cd)" ≠ "" ∧ '^' ∉ "a(b|cd)".toList ∧
    compile {} "a(b|cd)" = .ok branching.compile ∧
    ∃ e : Expression, e.spelling = "a(b|cd)".toList ∧ parse {} "a(b|cd)" = .ok e.tree ∧
      (∀ w, branching.compile.Accepts w ↔ w ∈ e.language) ∧
      (∀ id, branching.compile.Marked id ↔ id ∈ e.tree.wiring.exits) ∧
      ¬ branching.compile.Marked 0 := by
  have hne : "a(b|cd)" ≠ "" := by decide
  have hplain : '^' ∉ "a(b|cd)".toList := by decide
  have hcompile := compile_of_parse hne parse_branching
  exact ⟨hne, hplain, hcompile, compile_accepts_language hne hplain hcompile⟩

/-- **The marks of a pattern, in terms of its exits.** An exit from which nothing leads elsewhere is
marked, and so is the entry of a repeated group to which every exit within its reach leads back.
Such an entry need not be an exit, but it is not the start state then, and there is an exit within
its reach. -/
theorem compile_marked_exits {limits : Limits} {pattern : String} {a : Automaton}
    (hne : pattern ≠ "") (h : compile limits pattern = .ok a) :
    ∃ t, parse limits pattern = .ok t ∧
      (∀ id, a.Marked id ↔ (id ∈ t.wiring.exits ∧ a.Final id) ∨ a.Entry t.wiring.exits id) ∧
      ∀ id, a.Marked id → id ∉ t.wiring.exits →
        id ≠ 0 ∧ a.Entry t.wiring.exits id ∧ ∃ x ∈ t.wiring.exits, a.Reaches id x := by
  obtain ⟨e, -, hparse, rfl⟩ := expression_of_compile hne h
  have hclosed := Automaton.closed_ofExtent e.tree
  have hmarked : ∀ id, e.tree.compile.Marked id ↔ _ := fun _ =>
    Extent.marked_compile_iff e.solid_tree
  refine ⟨e.tree, hparse, fun id => ?_, fun id hmark hexit => ⟨?_, ?_, ?_⟩⟩
  · rw [hmarked, Extent.compile, Automaton.final_classify hclosed, Automaton.entry_classify hclosed]
  · rintro rfl
    exact hexit (Extent.mem_exits_of_marked_start e.solid_tree hmark)
  · rw [Extent.compile, Automaton.entry_classify hclosed]
    exact ((hmarked id).mp hmark).resolve_left fun h => hexit h.1
  · have hlt := ((Automaton.marked_classify hclosed).mp hmark).1
    rw [Extent.compile, Automaton.Reaches, Automaton.leads_classify hclosed]
    exact Extent.exists_reaches_exit e.solid_tree hlt

/-- The tree of `(a(b)^c)^`. -/
def nestedEntry : Extent :=
  .repetition (.concatenation [.leaf 'a', .repetition (.literal ['b']), .leaf 'c'])

theorem parse_nestedEntry : parse {} "(a(b)^c)^" = .ok nestedEntry := rfl

theorem compile_nestedEntry : compile {} "(a(b)^c)^" = .ok nestedEntry.compile :=
  compile_of_parse (by decide) parse_nestedEntry

theorem compile_marked_exits_nestedEntry : "(a(b)^c)^" ≠ "" ∧
    compile {} "(a(b)^c)^" = .ok nestedEntry.compile ∧
    ∃ t, parse {} "(a(b)^c)^" = .ok t ∧
      (∀ id, nestedEntry.compile.Marked id ↔
        (id ∈ t.wiring.exits ∧ nestedEntry.compile.Final id) ∨
          nestedEntry.compile.Entry t.wiring.exits id) ∧
      ∀ id, nestedEntry.compile.Marked id → id ∉ t.wiring.exits →
        id ≠ 0 ∧ nestedEntry.compile.Entry t.wiring.exits id ∧
          ∃ x ∈ t.wiring.exits, nestedEntry.compile.Reaches id x :=
  ⟨by decide, compile_nestedEntry, compile_marked_exits (by decide) compile_nestedEntry⟩

/-- Behind `a` the word is not over, but `(b)^` begins there, and the automaton accepts. -/
theorem nestedEntry_marked_no_exit : compile {} "(a(b)^c)^" = .ok nestedEntry.compile ∧
    parse {} "(a(b)^c)^" = .ok nestedEntry ∧ nestedEntry.compile.Marked 1 ∧
    1 ∉ nestedEntry.wiring.exits := by
  have hsolid : nestedEntry.Solid := Extent.solid_of_parse parse_nestedEntry
  have hread : (Automaton.ofExtent nestedEntry).Leads 0 1 :=
    (Extent.reads_zero.mpr (by decide)).elim fun c hedge => ⟨.char c, hedge⟩
  have hback : ∀ p q, (p, q) ∈ [(2, 1), (3, 0)] →
      (Automaton.ofExtent nestedEntry).HasEdge p .epsilon q := by
    simp [Automaton.hasEdge_ofExtent, nestedEntry, Extent.literal, Extent.wiring, Extent.wire,
      Extent.wireParts, Extent.enter, Extent.loopBack, Extent.leafCount, Extent.leafCountAll,
      Arrival.mem_merge]
    intro p q hpq
    rcases hpq with ⟨rfl, rfl⟩ | ⟨rfl, rfl⟩
    · exact ⟨by decide, .inl ⟨rfl, rfl⟩⟩
    · exact ⟨by decide, .inr ⟨rfl, rfl⟩⟩
  refine ⟨compile_nestedEntry, parse_nestedEntry, (Extent.marked_compile_iff hsolid).mpr ?_, ?_⟩
  · refine .inr ⟨⟨2, hback 2 1 (by decide)⟩, fun x hx _ => ?_⟩
    -- the exits are the start state, from which `a` is read, and the end, which leads back to it
    cases Automaton.mem_exits_wiring.mp hx with
    | inl hlast =>
      obtain rfl : x = 3 := List.mem_singleton.mp hlast
      exact .head ⟨.epsilon, hback 3 0 (by decide)⟩ (.single hread)
    | inr hstart =>
      rw [hstart.2]
      exact .single hread
  · rw [Automaton.mem_exits_wiring]
    decide

end CaretAutomata

import CaretAutomata.Automaton.Acceptance
import CaretAutomata.Proofs.Automaton.Reachability

/-!
# Acceptance by components is acceptance by reachable sets

The rules for acceptance are about sets: what a state reaches, and what every state it reaches
reaches in turn. `classify` computes none of these sets. It asks whether a state has edges, whether
one of them leads elsewhere, and — for the third rule — whether any edge leaves the component that
the state lies in. `ShouldAccept` keeps the rules as they are documented, and
**`classify_marks`** says that for every automaton whose edges lead to states the two agree,
state by state, and that the marks are all that changes.

The marks are written into the automaton, but not before all of them are known
(`run_markAccepting`). So whatever is missing on the way to them leaves the automaton as it was
(`classify_of_none`).
-/

namespace CaretAutomata.Automaton

open Relation

variable {a : Automaton}

/-- The rules for acceptance: nothing leads on from the state; or it reaches itself alone; or it is
entered without consuming anything, and all that it reaches reaches the same states as it does. -/
def ShouldAccept (a : Automaton) (id : StateId) : Prop :=
  (∀ symbol q, ¬ a.HasEdge id symbol q) ∨
  (∀ q, a.Reaches id q ↔ q = id) ∨
  ((∃ p, a.HasEdge p .epsilon id) ∧
    ∀ p, a.Reaches id p → ∀ q, a.Reaches p q ↔ a.Reaches id q)

/-- A state reaches itself alone when no edge of it leads elsewhere. -/
theorem reaches_self_iff {id : StateId} :
    (∀ q, a.Reaches id q ↔ q = id) ↔ ∀ q, a.Leads id q → q = id := by
  constructor
  · exact fun h q hedge => (h q).mp (.single hedge)
  · intro h q
    constructor
    · intro hreach
      induction hreach with
      | refl => rfl
      | tail _ hedge ih => exact h _ (ih ▸ hedge)
    · rintro rfl
      exact .refl

/-- All states within reach have the same reachable set when each of them leads back. -/
theorem reaches_same_iff {id : StateId} :
    (∀ p, a.Reaches id p → ∀ q, a.Reaches p q ↔ a.Reaches id q) ↔
      ∀ p, a.Reaches id p → a.Reaches p id := by
  constructor
  · exact fun h p hp => (h p hp id).mpr .refl
  · exact fun h p hp q => ⟨fun hq => hp.trans hq, fun hq => (h p hp).trans hq⟩

/-- What the code asks of one state, in terms of what the state reaches. All that it looks up is
there. -/
theorem exists_accepts {numbers : Array Nat} (hnumbers : a.graph.Numbered numbers)
    {closed : Array Bool}
    (hclosed : ∀ v < a.graph.size, ∃ stays, closed[numbers.getD v 0]? = some stays ∧
      (stays = true ↔ ∀ w, a.graph.Reach v w → a.graph.Reach w v))
    {flags : Array Bool} (hsize : flags.size = a.size)
    (hflags : ∀ q, flags.getD q false = true ↔ ∃ p, a.HasEdge p .epsilon q)
    {id : StateId} {s : State} (hs : a.states[id]? = some s) :
    ∃ flag, accepts? numbers closed flags id s = some flag ∧ (flag = true ↔ a.ShouldAccept id) := by
  have hlt : id < a.size := (Array.getElem?_eq_some_iff.mp hs).1
  have hnothing : s.hasTransitions = false ↔ ∀ symbol q, ¬ a.HasEdge id symbol q := by
    rw [← Bool.not_eq_true, State.hasTransitions_iff]
    simp [hasEdge_iff hs]
  have hitself : s.successors.all (· == id) = true ↔ ∀ q, a.Reaches id q ↔ q = id := by
    rw [reaches_self_iff, List.all_eq_true]
    unfold Leads
    simp [State.mem_successors, hasEdge_iff hs]
  obtain ⟨stays, hstays, hback⟩ := hclosed id (size_graph a ▸ hlt)
  simp only [reach_graph] at hback
  rw [← reaches_same_iff] at hback
  obtain ⟨entered, hentered, hsilent⟩ : ∃ entered, flags[id]? = some entered ∧
      (entered = true ↔ ∃ p, a.HasEdge p .epsilon id) := by
    have hentry := Array.getElem?_eq_getElem (hsize.symm ▸ hlt : id < flags.size)
    refine ⟨_, hentry, ?_⟩
    rw [← hflags, Array.getD_eq_getD_getElem?, hentry, Option.getD_some]
  have hnumber := hnumbers.getElem? (size_graph a ▸ hlt)
  -- the rules are tried in the order in which they are stated
  unfold accepts? ShouldAccept
  by_cases hnone : s.hasTransitions = false
  · exact ⟨true, by simp [hnone], iff_of_true rfl (.inl (hnothing.mp hnone))⟩
  by_cases hself : s.successors.all (· == id) = true
  · exact ⟨true, by simp [hnone, hself], iff_of_true rfl (.inr (.inl (hitself.mp hself)))⟩
  rw [← hnothing, or_iff_right hnone, ← hitself, or_iff_right hself, ← hsilent, ← hback]
  refine ⟨entered && stays, ?_, Bool.and_eq_true_iff⟩
  rw [Bool.not_eq_false] at hnone
  simp only [hnone, Bool.not_true, Bool.false_eq_true, if_false, hself, hentered, hnumber,
    Option.bind_eq_bind, Option.bind_some, hstays]
  cases entered <;> rfl

/-- The marks are found if all edges lead to states, and they are those of the rules. -/
theorem marks?_of_closed (h : a.Closed) : ∃ marks, a.marks? = some marks ∧
    marks.length = a.size ∧ ∀ id s, a.states[id]? = some s →
      ∃ flag, marks[id]? = some flag ∧ (flag = true ↔ a.ShouldAccept id) := by
  obtain ⟨numbers, hcomponents, hnumbers⟩ := Graph.componentNumbers_of_closed h.graph
  obtain ⟨closed, hclosed, hbits⟩ := Graph.closedComponents_of_closed hnumbers h.graph
  obtain ⟨flags, htargets, hflags⟩ := epsilonTargets_of_closed h
  have hstate : ∀ entry ∈ a.states.toList.zipIdx, ∃ flag,
      accepts? numbers closed flags entry.2 entry.1 = some flag ∧
        (flag = true ↔ a.ShouldAccept entry.2) := by
    intro entry hentry
    have hs := List.mem_zipIdx_iff_getElem?.mp hentry
    rw [Array.getElem?_toList] at hs
    exact exists_accepts hnumbers hbits (size_targeted htargets) hflags hs
  have hall : ∀ entry ∈ a.states.toList.zipIdx, accepts? numbers closed flags entry.2 entry.1 =
      some ((accepts? numbers closed flags entry.2 entry.1).getD false) := by
    intro entry hentry
    obtain ⟨flag, hflag, -⟩ := hstate entry hentry
    rw [hflag, Option.getD_some]
  refine ⟨a.states.toList.zipIdx.map fun entry =>
    (accepts? numbers closed flags entry.2 entry.1).getD false, ?_, ?_, fun id s hs => ?_⟩
  · simp only [marks?, componentNumbers?, hcomponents, hclosed, htargets, Option.bind_eq_bind,
      Option.bind_some]
    exact mapM_eq_some_map hall
  · simp [size]
  · have hentry : (a.states.toList.zipIdx)[id]? = some (s, id) := by
      simp [List.getElem?_zipIdx, hs]
    obtain ⟨flag, hflag, haccept⟩ := hstate (s, id) (List.mem_of_getElem? hentry)
    refine ⟨flag, ?_, haccept⟩
    rw [List.getElem?_map, hentry, Option.map_some, hflag, Option.getD_some]

/-! ## Writing the marks -/

/-- Writes marks, from the state at `k` on. -/
def setMarks (marks : List Bool) (k : StateId) (a : Automaton) : Automaton :=
  (marks.zipIdx k).foldl (fun a entry => ⟨a.states.modify entry.2 (·.mark entry.1)⟩) a

theorem run_forM_setMark (entries : List (Bool × StateId)) (a : Automaton) :
    (entries.forM fun entry => setMark entry.2 entry.1).run a =
      (some (), entries.foldl (fun a entry => ⟨a.states.modify entry.2 (·.mark entry.1)⟩) a) := by
  induction entries generalizing a with
  | nil => rfl
  | cons entry rest ih => exact ih _

/-- Either all marks are known, and they are written, or nothing is. -/
theorem run_markAccepting (a : Automaton) : markAccepting.run a =
    match a.marks? with
    | some marks => (some (), setMarks marks 0 a)
    | none => (none, a) := by
  have hrun : markAccepting.run a = ((a.marks?.getM : InPlace (List Bool)) >>= fun marks =>
      marks.zipIdx.forM fun entry => setMark entry.2 entry.1).run a := rfl
  rw [hrun]
  cases a.marks? with
  | none => rfl
  | some marks => exact run_forM_setMark _ a

theorem size_setMarks (marks : List Bool) (k : StateId) (a : Automaton) :
    (setMarks marks k a).size = a.size := by
  unfold setMarks
  induction marks generalizing k a with
  | nil => rfl
  | cons flag rest ih =>
    rw [List.zipIdx_cons, List.foldl_cons, ih]
    simp [size]

theorem setMarks_cons (flag : Bool) (rest : List Bool) (k : StateId) (a : Automaton) :
    setMarks (flag :: rest) k a = setMarks rest (k + 1) ⟨a.states.modify k (·.mark flag)⟩ := rfl

theorem getElem?_setMarks_of_lt {marks : List Bool} {k id : StateId} {a : Automaton}
    (hlt : id < k) : (setMarks marks k a).states[id]? = a.states[id]? := by
  induction marks generalizing k a with
  | nil => rfl
  | cons flag rest ih =>
    rw [setMarks_cons, ih (Nat.lt_succ_of_lt hlt), Array.getElem?_modify, if_neg (Nat.ne_of_gt hlt)]

/-- Every state gets the mark that stands at its position. -/
theorem getElem?_setMarks {marks : List Bool} {k id : Nat} {a : Automaton} {flag : Bool}
    (hle : k ≤ id) (hflag : marks[id - k]? = some flag) :
    (setMarks marks k a).states[id]? = a.states[id]?.map (·.mark flag) := by
  induction marks generalizing k a with
  | nil => exact absurd hflag (by simp)
  | cons first rest ih =>
    rw [setMarks_cons]
    rcases Nat.eq_or_lt_of_le hle with rfl | hlt
    · rw [Nat.sub_self] at hflag
      obtain rfl : first = flag := Option.some.inj hflag
      rw [getElem?_setMarks_of_lt (Nat.lt_succ_self _), Array.getElem?_modify, if_pos rfl]
    · have hnext : id - k = id - (k + 1) + 1 := by omega
      rw [hnext, List.getElem?_cons_succ] at hflag
      rw [ih hlt hflag, Array.getElem?_modify, if_neg (Nat.ne_of_lt hlt)]

theorem classify?_eq (a : Automaton) :
    a.classify? = a.marks?.map fun marks => setMarks marks 0 a := by
  rw [classify?, run_markAccepting]
  cases a.marks? <;> rfl

/-- As long as not all marks are known, none is written. -/
theorem classify_of_none (h : a.classify? = none) : a.classify = a := by
  rw [classify?_eq, Option.map_eq_none_iff] at h
  rw [classify, run_markAccepting, h]

theorem classify_of_some {b : Automaton} (h : a.classify? = some b) : a.classify = b := by
  rw [classify?_eq] at h
  obtain ⟨marks, hmarks, rfl⟩ := Option.map_eq_some_iff.mp h
  rw [classify, run_markAccepting, hmarks]

/-! ## The marks and the rules -/

theorem exists_classified (h : a.Closed) : ∃ b, a.classify? = some b ∧ b.size = a.size ∧
    ∀ id s, a.states[id]? = some s →
      ∃ flag, b.states[id]? = some (s.mark flag) ∧ (flag = true ↔ a.ShouldAccept id) := by
  obtain ⟨marks, hmarks, -, hrules⟩ := marks?_of_closed h
  have hclassify : a.classify? = some (setMarks marks 0 a) := by
    rw [classify?_eq, hmarks, Option.map_some]
  refine ⟨_, hclassify, size_setMarks marks 0 a, fun id s hs => ?_⟩
  obtain ⟨flag, hflag, haccept⟩ := hrules id s hs
  refine ⟨flag, ?_, haccept⟩
  rw [getElem?_setMarks (Nat.zero_le id) hflag, hs, Option.map_some]

/-- **The marks follow the reachable sets**, whatever the marks were before, and nothing but the
marks changes. -/
theorem classify_marks (a : Automaton) (h : a.Closed) :
    ∃ b, a.classify? = some b ∧ a.classify = b ∧ b.size = a.size ∧
      ∀ id s, a.states[id]? = some s →
        ∃ flag, b.states[id]? = some { s with accepting := flag } ∧
          (flag = true ↔ a.ShouldAccept id) := by
  obtain ⟨b, hb, hsize, hmarks⟩ := exists_classified h
  exact ⟨b, hb, classify_of_some hb, hsize, hmarks⟩

/-- Two states in a circle, one way over a character and back over nothing; the wrong one of them
is marked. -/
def circle : Automaton :=
  ⟨#[{ label := "s", transitions := [(.char 'a', [1])] },
    { label := "q0", accepting := true, transitions := [(.epsilon, [0])] }]⟩

theorem classify_marks_circle : circle.Closed ∧
    ∃ b, circle.classify? = some b ∧ circle.classify = b ∧ b.size = circle.size ∧
      ∀ id s, circle.states[id]? = some s →
        ∃ flag, b.states[id]? = some { s with accepting := flag } ∧
          (flag = true ↔ circle.ShouldAccept id) :=
  ⟨by decide, classify_marks circle (by decide)⟩

/-! ## The classified automaton -/

/-- The state at `id` bears the mark of acceptance. -/
def Marked (a : Automaton) (id : StateId) : Prop :=
  ∃ s, a.states[id]? = some s ∧ s.accepting = true

/-- The states of the classified automaton are those it was found from, marked by the rules. -/
theorem getElem?_classify (h : a.Closed) {id : StateId} {s : State} :
    a.classify.states[id]? = some s ↔
      ∃ old flag, a.states[id]? = some old ∧ s = old.mark flag ∧ (flag = true ↔ a.ShouldAccept id) := by
  obtain ⟨b, hb, hsize, hmarks⟩ := exists_classified h
  rw [classify_of_some hb]
  constructor
  · intro hs
    have hlt : id < a.size := by
      rw [← hsize]
      exact (Array.getElem?_eq_some_iff.mp hs).1
    have hold := Array.getElem?_eq_getElem hlt
    obtain ⟨flag, hnew, haccept⟩ := hmarks id _ hold
    exact ⟨_, flag, hold, Option.some.inj (hs.symm.trans hnew), haccept⟩
  · rintro ⟨old, flag, hold, rfl, haccept⟩
    obtain ⟨flag', hnew, haccept'⟩ := hmarks id old hold
    have hsame : flag = flag' := by rw [Bool.eq_iff_iff, haccept, haccept']
    rw [hnew, hsame]

theorem size_classify (a : Automaton) : a.classify.size = a.size := by
  cases hclassify : a.classify? with
  | none => rw [classify_of_none hclassify]
  | some b =>
    rw [classify_of_some hclassify]
    rw [classify?_eq] at hclassify
    obtain ⟨marks, -, rfl⟩ := Option.map_eq_some_iff.mp hclassify
    exact size_setMarks marks 0 a

theorem hasEdge_classify (h : a.Closed) {p q : StateId} {symbol : Symbol} :
    a.classify.HasEdge p symbol q ↔ a.HasEdge p symbol q := by
  unfold HasEdge
  constructor
  · intro hedge
    obtain ⟨s, hs, hmem⟩ := hedge
    obtain ⟨old, flag, hold, rfl, _⟩ := (getElem?_classify h).mp hs
    exact ⟨old, hold, hmem⟩
  · intro hedge
    obtain ⟨old, hold, hmem⟩ := hedge
    have hlt : p < a.classify.size := by
      rw [size_classify]
      exact (Array.getElem?_eq_some_iff.mp hold).1
    have hs := Array.getElem?_eq_getElem hlt
    obtain ⟨old', flag, hold', hmark, _⟩ := (getElem?_classify h).mp hs
    obtain rfl : old' = old := Option.some.inj (hold'.symm.trans hold)
    exact ⟨_, hs, hmark ▸ hmem⟩

theorem leads_classify (h : a.Closed) : a.classify.Leads = a.Leads := by
  funext p q
  exact propext (exists_congr fun _ => hasEdge_classify h)

/-- A state is marked exactly if the rules say so. -/
theorem marked_classify (h : a.Closed) {id : StateId} :
    a.classify.Marked id ↔ id < a.size ∧ a.ShouldAccept id := by
  constructor
  · intro hmarked
    obtain ⟨s, hs, haccepting⟩ := hmarked
    obtain ⟨old, flag, hold, rfl, hflag⟩ := (getElem?_classify h).mp hs
    exact ⟨(Array.getElem?_eq_some_iff.mp hold).1, hflag.mp haccepting⟩
  · intro hid
    obtain ⟨hlt, haccept⟩ := hid
    refine ⟨a.states[id].mark true, (getElem?_classify h).mpr ?_, rfl⟩
    exact ⟨a.states[id], true, Array.getElem?_eq_getElem hlt, rfl, fun _ => haccept, fun _ => rfl⟩

end CaretAutomata.Automaton

import Std.Data.TreeSet
import CaretAutomata.Graph.Basic

/-! # What can be reached from a vertex

A search that takes vertices from the front of a queue and puts their successors at its end. A
successor that was reached before is not put there, but it may be reached while it waits, or wait
there twice; so what comes to the front is skipped if it was reached in the meantime. -/

namespace CaretAutomata.Graph

/-- Those of some vertices that were not reached. -/
def unreached (reached : Std.TreeSet Nat) (targets : List Nat) : List Nat :=
  targets.filter fun w => !reached.contains w

/-- How often the search will still look at the front of its queue, at most. -/
def searchTurns (g : Graph) (queue : List Nat) (reached : Std.TreeSet Nat) : Nat :=
  g.turnsAhead (fun w => !reached.contains w) + queue.length

/-- A vertex that the search goes on from pays for all that it puts into the queue. -/
theorem searchTurns_insert_lt {g : Graph} {reached : Std.TreeSet Nat} {v : Nat}
    {rest targets : List Nat} (hv : ¬ reached.contains v)
    (htargets : g.successors[v]? = some targets) :
    g.searchTurns (rest ++ unreached (reached.insert v) targets) (reached.insert v) <
      g.searchTurns (v :: rest) reached := by
  have hturns : g.turns v 0 = targets.length + 1 := by
    rw [turns, htargets]
    rfl
  have hahead : g.turnsAhead (fun w => !(reached.insert v).contains w) + g.turns v 0 ≤
      g.turnsAhead (fun w => !reached.contains w) := by
    apply turnsAhead_add_le
    · intro w hw
      simp only [Std.TreeSet.contains_insert, Bool.not_or, Bool.and_eq_true] at hw
      exact hw.2
    · rw [(Bool.not_eq_true _).mp hv, Bool.not_false]
    · simp
  have hqueued : (unreached (reached.insert v) targets).length ≤ targets.length :=
    List.length_filter_le _ targets
  simp only [searchTurns, List.length_append, List.length_cons]
  omega

/-- Goes on until the queue is empty. There is no answer if something comes to its front that is no
vertex. -/
def reachLoop? (g : Graph) : (queue : List Nat) → (reached : Std.TreeSet Nat) →
    Option (Std.TreeSet Nat)
  | [], reached => some reached
  | v :: rest, reached =>
    if _ : reached.contains v then g.reachLoop? rest reached
    else
      let reached' := reached.insert v
      match _ : g.successors[v]? with
      | none => none
      | some targets => g.reachLoop? (rest ++ unreached reached' targets) reached'
termination_by queue reached => g.searchTurns queue reached
decreasing_by
  · exact Nat.lt_succ_self _
  · exact searchTurns_insert_lt ‹_› ‹_›

/-- The vertices that can be reached from `v`, itself included, in ascending order. There is no
answer if the way leads to something that is no vertex. -/
def reachable? (g : Graph) (v : Nat) : Option (List Nat) :=
  (g.reachLoop? [v] ∅).map Std.TreeSet.toList

end CaretAutomata.Graph

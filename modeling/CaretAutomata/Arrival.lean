import Std.Data.HashMap
import Std.Data.HashSet

/-! # Order of first arrival

The sets and maps of this library are shown in the order in which their members arrived, so they
are kept as lists. `distinct` keeps the first occurrence of every member, `gather` collects the
values that belong to a key, and `group` does both: one entry a key, in the order of the keys'
first arrival, each with its values in theirs. All three take time linear in the list. -/

namespace CaretAutomata.Arrival

open Std (HashMap HashSet)

variable {α β : Type} [BEq α] [Hashable α]

/-! ## Members -/

/-- Goes through a list and keeps what is not in `seen`; `kept` holds the members kept so far,
the last one first. -/
def distinctFrom (seen : HashSet α) (kept : List α) : List α → List α
  | [] => kept.reverse
  | x :: rest =>
    if seen.contains x then distinctFrom seen kept rest
    else distinctFrom (seen.insert x) (x :: kept) rest

/-- The members of a list in the order of their first arrival, each of them once. -/
def distinct (l : List α) : List α := distinctFrom ∅ [] l

/-- The members of `a`, then the further ones of `b`. -/
def merge (a b : List α) : List α := distinct (a ++ b)

section Lemmas

variable [LawfulBEq α]

theorem distinctFrom_eq (seen : HashSet α) (kept l : List α) :
    distinctFrom seen kept l = kept.reverse ++ (l.filter (!seen.contains ·)).eraseDups := by
  induction l generalizing seen kept with
  | nil => simp [distinctFrom]
  | cons x rest ih =>
    cases hx : seen.contains x with
    | true => simp [distinctFrom, hx, ih]
    | false =>
      have later (y : α) : (!x == y && !seen.contains y) = (!y == x && !seen.contains y) := by
        rw [BEq.comm]
      simp [distinctFrom, hx, ih, List.eraseDups_cons, List.filter_filter, later]

/-- What `distinct` says, without the set that makes it fast. -/
theorem distinct_eq_eraseDups (l : List α) : distinct l = l.eraseDups := by
  simp [distinct, distinctFrom_eq, List.filter_eq_self.2]

omit [LawfulBEq α] in
@[simp]
theorem distinct_nil : distinct ([] : List α) = [] := rfl

theorem distinct_cons (x : α) (l : List α) :
    distinct (x :: l) = x :: distinct (l.filter (!· == x)) := by
  simp [distinct_eq_eraseDups, List.eraseDups_cons]

@[simp]
theorem mem_distinct {x : α} {l : List α} : x ∈ distinct l ↔ x ∈ l := by
  simp [distinct_eq_eraseDups]

theorem nodup_distinct (l : List α) : (distinct l).Nodup := by
  induction h : l.length using Nat.strongRecOn generalizing l with
  | _ n ih =>
    cases l with
    | nil => simp
    | cons x rest =>
      rw [distinct_cons, List.nodup_cons]
      refine ⟨by simp, ih _ ?_ _ rfl⟩
      have := List.length_filter_le (!· == x) rest
      simp only [List.length_cons] at h
      omega

@[simp]
theorem mem_merge {x : α} {a b : List α} : x ∈ merge a b ↔ x ∈ a ∨ x ∈ b := by simp [merge]

theorem distinct_of_nodup {l : List α} (h : l.Nodup) : distinct l = l := by
  induction l with
  | nil => rfl
  | cons x rest ih =>
    obtain ⟨hx, hrest⟩ := List.nodup_cons.mp h
    have hkept : rest.filter (!· == x) = rest := by
      rw [List.filter_eq_self]
      intro y hy
      rw [Bool.not_eq_true', beq_eq_false_iff_ne]
      rintro rfl
      exact hx hy
    rw [distinct_cons, hkept, ih hrest]

/-- Members may be left out before or after. -/
theorem filter_distinct (keep : α → Bool) (l : List α) :
    (distinct l).filter keep = distinct (l.filter keep) := by
  induction h : l.length using Nat.strongRecOn generalizing l with
  | _ n ih =>
    cases l with
    | nil => rfl
    | cons x rest =>
      have hlt : (rest.filter (!· == x)).length < n := by
        rw [← h]
        exact Nat.lt_succ_of_le (List.length_filter_le _ rest)
      rw [distinct_cons, List.filter_cons, ih _ hlt _ rfl, List.filter_cons]
      cases hx : keep x with
      | true => simp [distinct_cons, List.filter_filter, Bool.and_comm]
      | false =>
        have hsame : (rest.filter (!· == x)).filter keep = rest.filter keep := by
          rw [List.filter_filter]
          refine List.filter_congr fun y _ => ?_
          by_cases hy : y = x
          · simp [hy, hx]
          · simp [hy]
        simp [hsame]

theorem distinct_append (a b : List α) :
    distinct (a ++ b) = distinct a ++ distinct (b.removeAll a) := by
  simp only [distinct_eq_eraseDups, List.eraseDups_append]

/-- In front of other members, a list may be made distinct first. -/
theorem distinct_distinct_append (a b : List α) :
    distinct (distinct a ++ b) = distinct (a ++ b) := by
  have hkept : b.removeAll (distinct a) = b.removeAll a := by
    unfold List.removeAll
    exact List.filter_congr fun x _ => by simp [List.elem_eq_contains]
  rw [distinct_append, distinct_append, distinct_of_nodup (nodup_distinct a), hkept]

/-- Between other members as well. -/
theorem distinct_append_distinct (a b c : List α) :
    distinct (a ++ (distinct b ++ c)) = distinct (a ++ (b ++ c)) := by
  rw [distinct_append, distinct_append a (b ++ c)]
  unfold List.removeAll
  rw [List.filter_append, filter_distinct, distinct_distinct_append, ← List.filter_append]

/-- What was merged once is not added again. -/
theorem merge_merge (a b : List α) : merge (merge a b) b = merge a b := by
  have hnone : b.removeAll (a ++ b) = [] := by
    rw [List.removeAll, List.filter_eq_nil_iff]
    intro x hx
    simp [hx]
  rw [merge, merge, distinct_distinct_append, distinct_append, hnone, distinct_nil, List.append_nil]

end Lemmas

/-! ## Values by key -/

/-- The values of every key, in the order of their arrival. -/
def gather (l : List (α × β)) : HashMap α (List β) :=
  l.foldr (fun (key, value) found => found.insert key (value :: found.getD key [])) ∅

/-- One entry a key, in the order of the keys' first arrival, each with all values of the key. -/
def group (l : List (α × β)) : List (α × List β) :=
  let found := gather l
  (distinct (l.map Prod.fst)).map fun key => (key, found.getD key [])

section Lemmas

variable [LawfulBEq α]

theorem getD_gather (l : List (α × β)) (key : α) :
    (gather l).getD key [] = (l.filter (·.1 == key)).map Prod.snd := by
  induction l with
  | nil => simp [gather]
  | cons p rest ih =>
    obtain ⟨k, v⟩ := p
    have : gather ((k, v) :: rest) = (gather rest).insert k (v :: (gather rest).getD k []) := rfl
    rw [this, HashMap.getD_insert]
    by_cases h : k = key
    · subst h; simp [ih]
    · simp [h, ih]

/-- The entries of a grouped list: every key that arrives, with the values it arrives with. -/
theorem group_eq (l : List (α × β)) :
    group l = (distinct (l.map Prod.fst)).map fun key =>
      (key, (l.filter (·.1 == key)).map Prod.snd) := by
  simp [group, getD_gather]

end Lemmas

end CaretAutomata.Arrival

import CaretAutomata.Proofs.Pattern.Descent

/-!
# A reading and its record

`calls` and `visits` say what `read` goes through without being part of it. `readThrough` is a
reading that writes both down as it goes. What it is given for the outline of a stretch is a
parameter, and may be nothing: `yields_readThrough` says that, wherever the outlines it meets are
the right ones, it answers as `read` does and its record is that of `calls` and `visits`.

With `Stretch.outline` this is so for every stretch (`yields_read`). With the scans, which know a
stretch by its two positions, it is so for every stretch that is called for in a text
(`yields_scanned`), so that a pattern is parsed by positions alone (`yields_parse`).
-/

namespace CaretAutomata.Pattern

/-! ## Computations with a record -/

/-- What a reading writes down. -/
structure Record where
  calls : List Call
  visits : List Visit
  deriving DecidableEq, Repr

instance : Append Record := ⟨fun front behind =>
  ⟨front.calls ++ behind.calls, front.visits ++ behind.visits⟩⟩

theorem Record.append_def (front behind : Record) :
    front ++ behind = ⟨front.calls ++ behind.calls, front.visits ++ behind.visits⟩ := rfl

@[simp] theorem Record.append_empty (record : Record) : record ++ ⟨[], []⟩ = record := by
  simp [Record.append_def]

theorem Record.append_assoc (a b c : Record) : a ++ b ++ c = a ++ (b ++ c) := by
  simp [Record.append_def]

/-- The record of members one behind the other. -/
def Record.along {α : Type} (called : α → List Call) (visited : α → List Visit) (reached : List α) :
    Record :=
  ⟨reached.flatMap called, reached.flatMap visited⟩

theorem Record.along_singleton {α : Type} (called : α → List Call) (visited : α → List Visit)
    (x : α) : along called visited [x] = ⟨called x, visited x⟩ := by
  simp [along]

/-- A fault ends a reading, and so does an outline that is not found. The record is kept. -/
abbrev Recording := ExceptT Fault (OptionT (StateM Record))

namespace Recording

variable {α β : Type} {record : Record}

def write (entry : Record) : Recording Unit := modify (· ++ entry)

def found (outline : Option Outline) : Recording Outline := ExceptT.lift (OptionT.mk (pure outline))

/-- The computation gives `result`, and puts `record` behind what was written down before. -/
def Yields (x : Recording α) (result : Except Fault α) (record : Record) : Prop :=
  ∀ before, x.run.run.run before = (some result, before ++ record)

theorem yields_pure (a : α) : (pure a : Recording α).Yields (.ok a) ⟨[], []⟩ := fun before =>
  congrArg (Prod.mk _) before.append_empty.symm

theorem yields_throw (fault : Fault) : (throw fault : Recording α).Yields (.error fault) ⟨[], []⟩ :=
  fun before => congrArg (Prod.mk _) before.append_empty.symm

theorem yields_found (outline : Outline) : (found (some outline)).Yields (.ok outline) ⟨[], []⟩ :=
  fun before => congrArg (Prod.mk _) before.append_empty.symm

theorem yields_ofExcept (result : Except Fault α) :
    (MonadExcept.ofExcept result : Recording α).Yields result ⟨[], []⟩ := by
  cases result with
  | error fault => exact yields_throw fault
  | ok a => exact yields_pure a

variable {x : Recording α} {f : α → Recording β}

theorem Yields.bind {a : α} {result : Except Fault β} {behind : Record}
    (hx : x.Yields (.ok a) record) (hf : (f a).Yields result behind) :
    (x >>= f).Yields result (record ++ behind) := by
  intro before
  rw [← Record.append_assoc, ← hf (before ++ record)]
  simp only [ExceptT.run_bind, OptionT.run_bind, Option.elimM, StateT.run_bind, hx before]
  rfl

theorem Yields.bind_error {fault : Fault} (hx : x.Yields (.error fault) record) :
    (x >>= f).Yields (.error fault) record := by
  intro before
  simp only [ExceptT.run_bind, OptionT.run_bind, Option.elimM, StateT.run_bind, hx before]
  rfl

theorem Yields.map {result : Except Fault α} (hx : x.Yields result record) (g : α → β) :
    (do return g (← x)).Yields (do return g (← result)) record := by
  cases result with
  | error fault => exact hx.bind_error
  | ok a =>
    rw [← record.append_empty]
    exact hx.bind (yields_pure (g a))

/-- What is written down first stands in front. -/
theorem Yields.after_write {result : Except Fault α} (hx : x.Yields result record)
    (entry : Record) : (do write entry; x).Yields result (entry ++ record) := by
  have hwrite : (write entry).Yields (.ok ()) entry := fun _ => rfl
  exact hwrite.bind (f := fun _ => x) hx

end Recording

/-! ## Up to the first fault -/

section Lists

variable {α β : Type} {f : α → Recording β} {rd : α → Except Fault β} {called : α → List Call}
  {visited : α → List Visit} {x : α} {xs : List α}

/-- The members of a list that its reading comes to. -/
def reached (rd : α → Except Fault β) (xs : List α) : List α :=
  throughFirstFailure (fun x => (rd x).isOk) xs

theorem reached_cons_of_ok {b : β} (h : rd x = .ok b) :
    reached rd (x :: xs) = x :: reached rd xs := by
  cases xs with
  | nil => rfl
  | cons y others => simp [reached, throughFirstFailure, h, Except.isOk, Except.toBool]

theorem reached_cons_of_error {fault : Fault} (h : rd x = .error fault) :
    reached rd (x :: xs) = [x] := by
  cases xs with
  | nil => rfl
  | cons y others => simp [reached, throughFirstFailure, h, Except.isOk, Except.toBool]

/-- A list is gone through as far as its first fault, and so far goes the record. -/
theorem Recording.yields_mapM (h : ∀ x ∈ xs, (f x).Yields (rd x) ⟨called x, visited x⟩) :
    (xs.mapM f).Yields (xs.mapM rd) (.along called visited (reached rd xs)) := by
  induction xs with
  | nil => exact yields_pure []
  | cons x xs ih =>
    have hx := h x (.head _)
    have hxs := ih fun y hy => h y (.tail _ hy)
    rw [List.mapM_cons, List.mapM_cons]
    cases hrd : rd x with
    | error fault =>
      rw [hrd] at hx
      rw [reached_cons_of_error hrd, Record.along_singleton]
      exact hx.bind_error
    | ok b =>
      rw [hrd] at hx
      rw [reached_cons_of_ok hrd]
      exact hx.bind (f := fun b => do return b :: (← xs.mapM f)) (hxs.map (b :: ·))

end Lists

/-! ## The reading -/

def Part.recordWith (inside : Stretch → Recording Extent) : Part → Recording Extent
  | .sign c => return .leaf c
  | .repeatedSign c => return .repetition (.leaf c)
  | .nested stretch => inside stretch

def Outline.recordWith (inside : Stretch → Recording Extent) : Outline → Recording Extent
  | .faulty fault => throw (.structural fault)
  | .repetition body => do
    return .repetition (← inside body)
  | .sequence parts fault => do
    let parts ← parts.mapM (Part.recordWith inside)
    MonadExcept.ofExcept (raise fault)
    return .concatenation parts
  | .choice alternatives fault => do
    let alternatives ← alternatives.mapM inside
    MonadExcept.ofExcept (raise fault)
    return .union alternatives

/-- Reads a stretch by the outlines that `look` finds. Its own visit is written down unless it lies
too deep, the call for it in any case. -/
def readThrough (look : Stretch → Option Outline) (limit : Nat) :
    (budget : Nat) → Stretch → Recording Extent
  | 0, _ => throw (.tooDeep limit)
  | budget + 1, s => do
    Recording.write ⟨[], [⟨s, limit - budget⟩]⟩
    let outline ← Recording.found (look s)
    outline.recordWith fun inner => do
      Recording.write ⟨[⟨⟨s, limit - budget⟩, ⟨inner, limit - budget + 1⟩⟩], []⟩
      readThrough look limit budget inner

/-! ## What a reading answers and what it writes down -/

section Outlines

variable {inside : Stretch → Recording Extent} {rd : Stretch → Except Fault Extent}
  {called : Stretch → List Call} {visited : Stretch → List Visit}

/-- The stretch that is read for a part, if any is. -/
def Part.stretch? : Part → Option Stretch
  | .nested stretch => some stretch
  | _ => none

/-- Signs have no record, and none of them fails. -/
theorem flatMap_reached_parts {γ : Type} (entries : Stretch → List γ) (parts : List Part) :
    (reached (Part.readWith rd) parts).flatMap (fun part => part.stretch?.toList.flatMap entries) =
      (reached rd (parts.filterMap Part.stretch?)).flatMap entries := by
  induction parts with
  | nil => rfl
  | cons part parts ih =>
    cases part with
    | sign c =>
      have hread : Part.readWith rd (.sign c) = .ok (.leaf c) := rfl
      rw [reached_cons_of_ok hread]
      exact ih
    | repeatedSign c =>
      have hread : Part.readWith rd (.repeatedSign c) = .ok (.repetition (.leaf c)) := rfl
      rw [reached_cons_of_ok hread]
      exact ih
    | nested s =>
      have hpart : Part.readWith rd (.nested s) = rd s := rfl
      have hstretches : (Part.nested s :: parts).filterMap Part.stretch? =
          s :: parts.filterMap Part.stretch? := rfl
      rw [hstretches]
      cases hread : rd s with
      | error fault =>
        rw [reached_cons_of_error hread, reached_cons_of_error (hpart.trans hread)]
        simp [Part.stretch?]
      | ok t =>
        rw [reached_cons_of_ok hread, reached_cons_of_ok (hpart.trans hread), List.flatMap_cons,
          List.flatMap_cons, ih]
        simp [Part.stretch?]

theorem stretches_sequence (parts : List Part) (own : Option StructuralFault) :
    (Outline.sequence parts own).stretches = parts.filterMap Part.stretch? := by
  rw [Outline.stretches]
  congr 1

theorem Part.yields_recordWith (part : Part)
    (h : ∀ s, part = .nested s → (inside s).Yields (rd s) ⟨called s, visited s⟩) :
    (part.recordWith inside).Yields (part.readWith rd)
      ⟨part.stretch?.toList.flatMap called, part.stretch?.toList.flatMap visited⟩ := by
  cases part with
  | sign c => exact Recording.yields_pure _
  | repeatedSign c => exact Recording.yields_pure _
  | nested s =>
    have hs := h s rfl
    rw [← Record.along_singleton called visited s] at hs
    exact hs

/-- What is wrong behind the parts is found when they are read. -/
theorem Recording.Yields.raise {α β : Type} {x : Recording α} {result : Except Fault α}
    {record : Record} (hx : x.Yields result record) (own : Option StructuralFault) (node : α → β) :
    (do
      let a ← x
      MonadExcept.ofExcept (Pattern.raise own)
      return node a).Yields
    (do
      let a ← result
      Pattern.raise own
      return node a) record := by
  cases result with
  | error fault => exact hx.bind_error
  | ok a =>
    rw [← record.append_empty]
    refine hx.bind (f := fun a => do MonadExcept.ofExcept (Pattern.raise own); return node a) ?_
    have hown := yields_ofExcept (Pattern.raise own)
    cases own with
    | none => exact hown.bind (f := fun _ => pure (node a)) (yields_pure (node a))
    | some found => exact hown.bind_error

theorem Outline.yields_recordWith (outline : Outline)
    (h : ∀ s ∈ outline.stretches, (inside s).Yields (rd s) ⟨called s, visited s⟩) :
    (outline.recordWith inside).Yields (outline.readWith rd)
      (.along called visited (reached rd outline.stretches)) := by
  cases outline with
  | faulty fault => exact Recording.yields_throw _
  | repetition body =>
    have hbody := h body (.head _)
    rw [← Record.along_singleton called visited body] at hbody
    exact hbody.map Extent.repetition
  | sequence parts own =>
    rw [stretches_sequence] at h ⊢
    have hpart : ∀ part ∈ parts, (part.recordWith inside).Yields (part.readWith rd)
        ⟨part.stretch?.toList.flatMap called, part.stretch?.toList.flatMap visited⟩ := by
      intro part hpart
      apply part.yields_recordWith
      rintro s rfl
      exact h s (List.mem_filterMap.mpr ⟨_, hpart, rfl⟩)
    have hparts := Recording.yields_mapM hpart
    rw [Record.along, flatMap_reached_parts, flatMap_reached_parts] at hparts
    exact hparts.raise own Extent.concatenation
  | choice alternatives own => exact (Recording.yields_mapM h).raise own Extent.union

end Outlines

/-- **A reading by the right outlines answers as `read` does, and its record is that of `calls` and
`visits`.** Which outlines are looked at is known of all that they name in their turn. -/
theorem yields_readThrough {look : Stretch → Option Outline} {P : Stretch → Prop}
    (hlook : ∀ s, P s → look s = some s.outline)
    (hP : ∀ s, P s → ∀ inner ∈ s.outline.stretches, P inner) (limit : Nat) :
    ∀ (budget : Nat) {s : Stretch}, P s → (readThrough look limit budget s).Yields
      (read limit budget s) ⟨calls limit budget s, visits limit budget s⟩
  | 0, s, _ => Recording.yields_throw _
  | budget + 1, s, hs => by
    have hinside : ∀ inner ∈ s.outline.stretches, (do
        Recording.write ⟨[⟨⟨s, limit - budget⟩, ⟨inner, limit - budget + 1⟩⟩], []⟩
        readThrough look limit budget inner).Yields (read limit budget inner)
          ⟨⟨⟨s, limit - budget⟩, ⟨inner, limit - budget + 1⟩⟩ :: calls limit budget inner,
            visits limit budget inner⟩ := by
      intro inner hinner
      exact (yields_readThrough hlook hP limit budget (hP s hs inner hinner)).after_write _
    have houtline := s.outline.yields_recordWith hinside
    rw [readThrough, hlook s hs, read_succ]
    exact ((Recording.yields_found _).bind houtline).after_write _

/-- `read` with its record. -/
theorem yields_read (limit budget : Nat) (s : Stretch) :
    (readThrough (some ·.outline) limit budget s).Yields (read limit budget s)
      ⟨calls limit budget s, visits limit budget s⟩ :=
  yields_readThrough (P := fun _ => True) (fun _ _ => rfl) (fun _ _ _ _ => trivial) limit budget
    trivial

/-- The outline that a scan finds between the positions of a stretch. -/
def scanned? (text : List Char) (s : Stretch) : Option Outline :=
  outlineBetween? text s.start s.stop

/-- Every stretch that is called for in a text can be read by positions. -/
theorem yields_scanned {text : List Char} (hruns : ¬ ['^', '^'] <:+: text)
    (limit budget : Nat) {s : Stretch} (hs : s.CalledIn text) :
    (readThrough (scanned? text) limit budget s).Yields (read limit budget s)
      ⟨calls limit budget s, visits limit budget s⟩ :=
  yields_readThrough (fun _ hs => outlineBetween?_eq hs.cut)
    (fun _ hs _ hinner => hs.named hruns hinner) limit budget hs

/-- **A pattern is parsed by positions alone.** The scans of its collapsed text, each calling for
the next ones, never fail, and give what `parse` gives, with its calls and visits. -/
theorem yields_parse {limits : Limits} {pattern : String} (hne : pattern ≠ "")
    (hlength : pattern.length ≤ limits.maxLength) :
    let depth := limits.maxDepth
    let whole := Stretch.ofText pattern.toList
    (readThrough (scanned? (collapse pattern.toList)) depth depth whole).Yields
      (parse limits pattern) ⟨calls depth depth whole, visits depth depth whole⟩ := by
  intro depth whole
  have hnil : pattern.toList ≠ [] := fun h => hne (String.toList_eq_nil_iff.mp h)
  rw [parse_eq_read hlength hnil]
  exact yields_scanned (not_infix_collapse pattern.toList) _ _ (calledIn_ofText hnil)

end CaretAutomata.Pattern

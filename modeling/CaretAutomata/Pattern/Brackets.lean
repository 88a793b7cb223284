/-! # Matched brackets

A text is cut at its brackets once, before anything else is read. `Bracketed` is a text in which
every bracket is matched, `Layout.ofText` finds the longest one that a text starts with, and keeps
what follows it: the closing brackets that close nothing, or the opening one that is never closed.
Nothing is lost (`spelling_ofText`), and a matched text comes back whole (`ofText_spelling`). -/

namespace CaretAutomata.Pattern

/-! ## Matched text -/

/-- Text in which every bracket is matched. A sign is any character that is no bracket. -/
inductive Bracketed where
  | nil
  | sign (c : Char) (rest : Bracketed)
  | group (inside rest : Bracketed)
  deriving DecidableEq, Repr, Inhabited

namespace Bracketed

def spellingOnto : Bracketed → List Char → List Char
  | nil, tail => tail
  | sign c rest, tail => c :: rest.spellingOnto tail
  | group inside rest, tail => '(' :: inside.spellingOnto (')' :: rest.spellingOnto tail)

/-- The characters of the text, brackets included. -/
def spelling (b : Bracketed) : List Char := b.spellingOnto []

def width : Bracketed → Nat
  | nil => 0
  | sign _ rest => rest.width + 1
  | group inside rest => inside.width + rest.width + 2

def isEmpty : Bracketed → Bool
  | nil => true
  | _ => false

def startsWithMarker : Bracketed → Bool
  | sign '^' _ => true
  | _ => false

/-- A bar stands outside all groups. -/
def hasBar : Bracketed → Bool
  | nil => false
  | sign c rest => c == '|' || rest.hasBar
  | group _ rest => rest.hasBar

/-- Cuts the text at the bars that stand outside all groups: the part before the first bar, and
the parts behind the bars. -/
def splitAtBars : Bracketed → Bracketed × List Bracketed
  | nil => (nil, [])
  | sign c rest =>
    let (first, others) := rest.splitAtBars
    if c = '|' then (nil, first :: others) else (sign c first, others)
  | group inside rest =>
    let (first, others) := rest.splitAtBars
    (group inside first, others)

def append : Bracketed → Bracketed → Bracketed
  | nil, b => b
  | sign c rest, b => sign c (rest.append b)
  | group inside rest, b => group inside (rest.append b)

/-- No sign is a bracket: the brackets of the text are those of its groups. -/
def Proper : Bracketed → Prop
  | nil => True
  | sign c rest => c ≠ '(' ∧ c ≠ ')' ∧ rest.Proper
  | group inside rest => inside.Proper ∧ rest.Proper

theorem spellingOnto_append (b : Bracketed) (s t : List Char) :
    b.spellingOnto (s ++ t) = b.spellingOnto s ++ t := by
  induction b generalizing s with
  | nil => rfl
  | sign c rest ih => simp [spellingOnto, ih]
  | group inside rest ihInside ihRest =>
    simp only [spellingOnto, ihRest]
    rw [← List.cons_append, ihInside, List.cons_append]

theorem spellingOnto_eq (b : Bracketed) (tail : List Char) :
    b.spellingOnto tail = b.spelling ++ tail :=
  b.spellingOnto_append [] tail

@[simp]
theorem append_nil (b : Bracketed) : b.append nil = b := by
  induction b <;> simp [append, *]

theorem isEmpty_iff {b : Bracketed} : b.isEmpty = true ↔ b = nil := by
  cases b <;> simp [isEmpty]

@[simp]
theorem spelling_nil : nil.spelling = [] := rfl

@[simp]
theorem spelling_sign (c : Char) (rest : Bracketed) :
    (sign c rest).spelling = c :: rest.spelling := rfl

@[simp]
theorem spelling_group (inside rest : Bracketed) :
    (group inside rest).spelling = '(' :: (inside.spelling ++ ')' :: rest.spelling) := by
  rw [spelling, spellingOnto, spellingOnto_eq]
  rfl

@[simp]
theorem length_spelling (b : Bracketed) : b.spelling.length = b.width := by
  induction b with
  | nil => rfl
  | sign c rest ih => simp [width, ih]
  | group inside rest ihInside ihRest => simp [width, ihInside, ihRest]; omega

theorem append_assoc (a b c : Bracketed) : (a.append b).append c = a.append (b.append c) := by
  induction a with
  | nil => rfl
  | sign d rest ih => simp [append, ih]
  | group inside rest _ ih => simp [append, ih]

@[simp]
theorem spelling_append (a b : Bracketed) : (a.append b).spelling = a.spelling ++ b.spelling := by
  induction a with
  | nil => rfl
  | sign d rest ih => simp [append, ih]
  | group inside rest _ ih => simp [append, ih]

@[simp]
theorem width_append (a b : Bracketed) : (a.append b).width = a.width + b.width := by
  rw [← length_spelling, spelling_append, List.length_append, length_spelling, length_spelling]

/-- Text between matched texts is matched apart from them. -/
theorem proper_append {a b : Bracketed} : (a.append b).Proper ↔ a.Proper ∧ b.Proper := by
  induction a with
  | nil => simp [append, Proper]
  | sign d rest ih => simp [append, Proper, ih, and_assoc]
  | group inside rest _ ih => simp [append, Proper, ih, and_assoc]

end Bracketed

/-! ## Cutting a text at its brackets -/

/-- A text cut at its brackets: `nodes`, then for every closing bracket that closes nothing the
matched text behind it, then, if an opening bracket is never closed, all the text behind the first
such bracket. -/
structure Layout where
  nodes : Bracketed
  strays : List Bracketed := []
  unclosed : Option (List Char) := none
  deriving DecidableEq, Repr, Inhabited

namespace Layout

/-- The closing brackets without partner, each with the text behind it. -/
def spellStrays : List Bracketed → List Char
  | [] => []
  | b :: others => ')' :: (b.spelling ++ spellStrays others)

/-- The opening bracket that is never closed, with the text behind it. -/
def spellUnclosed : Option (List Char) → List Char
  | none => []
  | some rest => '(' :: rest

def tail (l : Layout) : List Char := spellStrays l.strays ++ spellUnclosed l.unclosed

def spelling (l : Layout) : List Char := l.nodes.spelling ++ l.tail

def isComplete (l : Layout) : Bool := l.strays.isEmpty && l.unclosed.isNone

/-- Puts `c`, with the text `rest` behind it, in front of the layout of `rest`. An opening bracket
takes up to the first closing one that has no partner yet; without one it is never closed. -/
def push (c : Char) (rest : List Char) (l : Layout) : Layout :=
  match c, l with
  | '(', ⟨inside, after :: strays, unclosed⟩ => ⟨.group inside after, strays, unclosed⟩
  | '(', ⟨_, [], _⟩ => ⟨.nil, [], some rest⟩
  | ')', ⟨nodes, strays, unclosed⟩ => ⟨.nil, nodes :: strays, unclosed⟩
  | c, ⟨nodes, strays, unclosed⟩ => ⟨.sign c nodes, strays, unclosed⟩

/-- Cuts a text at its brackets. -/
def ofText : List Char → Layout
  | [] => ⟨.nil, [], none⟩
  | c :: rest => push c rest (ofText rest)

theorem spelling_push {c : Char} {rest : List Char} {l : Layout} (h : l.spelling = rest) :
    (push c rest l).spelling = c :: rest := by
  subst h
  obtain ⟨nodes, strays, unclosed⟩ := l
  by_cases ho : c = '('
  · subst ho
    cases strays <;> simp [push, spelling, tail, spellStrays, spellUnclosed]
  · by_cases hc : c = ')'
    · subst hc
      simp [push, spelling, tail, spellStrays]
    · simp [push, ho, spelling, tail]

@[simp]
theorem spelling_ofText (text : List Char) : (ofText text).spelling = text := by
  induction text with
  | nil => rfl
  | cons c rest ih => exact spelling_push ih

/-- All matched texts of a layout are proper. -/
def Proper (l : Layout) : Prop := l.nodes.Proper ∧ ∀ b ∈ l.strays, b.Proper

theorem proper_push {c : Char} {rest : List Char} {l : Layout} (h : l.Proper) :
    (push c rest l).Proper := by
  obtain ⟨nodes, strays, unclosed⟩ := l
  obtain ⟨hn, hs⟩ := h
  by_cases ho : c = '('
  · subst ho
    cases strays with
    | nil => simp [push, Proper, Bracketed.Proper]
    | cons after others =>
      exact ⟨⟨hn, hs after (.head _)⟩, fun b hb => hs b (.tail _ hb)⟩
  · by_cases hc : c = ')'
    · subst hc
      refine ⟨trivial, fun b hb => ?_⟩
      rcases List.mem_cons.1 hb with rfl | hb
      · exact hn
      · exact hs b hb
    · simpa [push, ho, Proper, Bracketed.Proper, hc] using And.intro hn hs

/-- Cutting a text leaves no bracket among the signs. -/
theorem proper_ofText (text : List Char) : (ofText text).Proper := by
  induction text with
  | nil => exact ⟨trivial, by simp [ofText]⟩
  | cons c rest ih => exact proper_push ih

/-- A matched text in front of another one stays in one piece. -/
theorem ofText_append {b : Bracketed} (hb : b.Proper) (rest : List Char) :
    ofText (b.spelling ++ rest) =
      ⟨b.append (ofText rest).nodes, (ofText rest).strays, (ofText rest).unclosed⟩ := by
  induction b generalizing rest with
  | nil => rfl
  | sign c others ih =>
    obtain ⟨ho, _, hrest⟩ := hb
    simp [ofText, ih hrest, push, ho, Bracketed.append]
  | group inside others ihInside ihOthers =>
    obtain ⟨hinside, hothers⟩ := hb
    simp [ofText, ihInside hinside, ihOthers hothers, push, Bracketed.append]

@[simp]
theorem ofText_spelling {b : Bracketed} (hb : b.Proper) : ofText b.spelling = ⟨b, [], none⟩ := by
  simpa [ofText, Bracketed.append_nil] using ofText_append hb []

end Layout

end CaretAutomata.Pattern

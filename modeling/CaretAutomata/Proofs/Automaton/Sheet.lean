import CaretAutomata.Automaton.Table

/-!
# Reading a table back

A table is cut into rows at line ends, a row into cells at tabs, and a cell into names at commas, and
that would be all there is to it, were it not for the first row: between its quotes may stand a tab
or a line end, or the quote itself. But there every cell has the same length, so the first row is
read from the left, four characters at a time, until something else than a tab follows. What is left
over holds each of the three separators only where it separates.

A `Sheet` is what the text shows: the symbols as they are written, and names. **`Sheet.text_inj`**
says that a text shows one sheet at most.
-/

namespace CaretAutomata

/-! ## Separators -/

theorem not_mem_intercalate {c : Char} {sep : List Char} (hsep : c ∉ sep) :
    ∀ {parts : List (List Char)}, (∀ part ∈ parts, c ∉ part) → c ∉ sep.intercalate parts
  | [], _ => by simp
  | [last], h => by simpa using h last (.head _)
  | first :: second :: others, h => by
    have hothers : c ∉ sep.intercalate (second :: others) :=
      not_mem_intercalate hsep fun part hpart => h part (.tail _ hpart)
    rw [List.intercalate_cons_cons, List.mem_append, List.mem_append]
    rintro ((hfirst | hmem) | hmem)
    · exact h first (.head _) hfirst
    · exact hsep hmem
    · exact hothers hmem

/-- Lists with the same image are equal if their members can be told by their images. -/
theorem map_inj_of_mem {α β : Type} {f : α → β} : ∀ {xs ys : List α},
    (∀ x ∈ xs, ∀ y ∈ ys, f x = f y → x = y) → xs.map f = ys.map f → xs = ys
  | [], [], _, _ => rfl
  | [], _ :: _, _, h => absurd h (by simp)
  | _ :: _, [], _, h => absurd h (by simp)
  | x :: xs, y :: ys, hf, h => by
    obtain ⟨hfirst, hothers⟩ := List.cons.inj h
    rw [hf x (.head _) y (.head _) hfirst, map_inj_of_mem (fun x hx y hy =>
      hf x (.tail _ hx) y (.tail _ hy)) hothers]

/-- Texts are told apart by a character between them that none of them holds. -/
theorem intercalate_inj (sep : String) (c : Char) (hsep : sep.toList = [c]) {ts ts' : List String}
    (hne : ts ≠ []) (hne' : ts' ≠ []) (h : ∀ t ∈ ts, c ∉ t.toList) (h' : ∀ t ∈ ts', c ∉ t.toList)
    (heq : sep.intercalate ts = sep.intercalate ts') : ts = ts' := by
  have hsplit : ∀ {us : List String}, us ≠ [] → (∀ t ∈ us, c ∉ t.toList) →
      (sep.intercalate us).toList.splitOn c = us.map String.toList := by
    intro us hus hmem
    rw [String.toList_intercalate, hsep]
    refine List.splitOn_intercalate c (fun part hpart => ?_) (by simpa using hus)
    obtain ⟨t, ht, rfl⟩ := List.mem_map.mp hpart
    exact hmem t ht
  have hlists := hsplit hne h
  rw [heq, hsplit hne' h'] at hlists
  exact map_inj_of_mem (fun _ _ _ _ => String.toList_inj.mp) hlists.symm

namespace Automaton

/-! ## Sheets -/

/-- The names in a cell; there are none, not even an empty list of them, if the cell is empty. -/
abbrev Cell := Option (List String)

/-- A row of a table below the first one. -/
structure Row where
  name : String
  cells : List Cell

/-- What a table shows: the symbols as they are written, and the rows of the states. -/
structure Sheet where
  symbols : List Char
  rows : List Row

def Cell.text : Cell → String
  | none => ""
  | some names => "\x7b" ++ ",".intercalate names ++ "\x7d"

def Row.text (row : Row) : String := "\t".intercalate (row.name :: row.cells.map Cell.text)

/-- The first row. -/
def headerText (symbols : List Char) : String :=
  String.join (symbols.map fun c => "\t'" ++ c.toString ++ "'")

def Sheet.text (sheet : Sheet) : String :=
  "\n".intercalate ((if sheet.symbols.isEmpty then [] else [headerText sheet.symbols]) ++
    sheet.rows.map Row.text)

/-- The text holds none of the three separators. -/
def Unbroken (text : String) : Prop := ∀ c ∈ ['\t', '\n', ','], c ∉ text.toList

/-- A cell that is not empty holds a name, and no name in it holds a separator. -/
def Cell.Proper (cell : Cell) : Prop :=
  ∀ names, cell = some names → names ≠ [] ∧ ∀ name ∈ names, Unbroken name

structure Row.Proper (row : Row) : Prop where
  name : Unbroken row.name
  cells : ∀ cell ∈ row.cells, cell.Proper

/-- There is a row for some state, every row has a cell for each symbol, and all names can be told
from what stands between them. -/
structure Sheet.Proper (sheet : Sheet) : Prop where
  nonempty : sheet.rows ≠ []
  width : ∀ row ∈ sheet.rows, row.cells.length = sheet.symbols.length
  rows : ∀ row ∈ sheet.rows, row.Proper

/-! ## Cells and rows -/

namespace Cell

theorem toList_text_some (names : List String) :
    (text (some names)).toList =
      "\x7b".toList ++ ([','].intercalate (names.map String.toList) ++ "\x7d".toList) := by
  simp [text, String.toList_intercalate]

/-- Only names are long enough to hold a tab or a line end. -/
theorem not_mem_text {cell : Cell} (h : cell.Proper) {c : Char} (hc : c = '\t' ∨ c = '\n') :
    c ∉ cell.text.toList := by
  have hsign : c ∉ "\x7b".toList ∧ c ∉ [','] ∧ c ∉ "\x7d".toList := by
    rcases hc with rfl | rfl <;> decide
  cases cell with
  | none => simp [text]
  | some names =>
    have hnames : c ∉ [','].intercalate (names.map String.toList) := by
      refine not_mem_intercalate hsign.2.1 fun part hpart => ?_
      obtain ⟨name, hname, rfl⟩ := List.mem_map.mp hpart
      refine ((h names rfl).2 name hname) c ?_
      rcases hc with rfl | rfl <;> simp
    rw [toList_text_some, List.mem_append, List.mem_append]
    rintro (hopen | hmem | hclose)
    · exact hsign.1 hopen
    · exact hnames hmem
    · exact hsign.2.2 hclose

theorem text_inj {cell cell' : Cell} (h : cell.Proper) (h' : cell'.Proper)
    (heq : cell.text = cell'.text) : cell = cell' := by
  have hlist := congrArg String.toList heq
  cases cell with
  | none =>
    cases cell' with
    | none => rfl
    | some names' => exact absurd hlist (by simp [text])
  | some names =>
    cases cell' with
    | none => exact absurd hlist (by simp [text])
    | some names' =>
      rw [toList_text_some, toList_text_some] at hlist
      have hbetween := List.append_cancel_right (List.append_cancel_left hlist)
      obtain ⟨hne, hnames⟩ := h names rfl
      obtain ⟨hne', hnames'⟩ := h' names' rfl
      refine congrArg some (intercalate_inj "," ',' rfl hne hne' ?_ ?_ ?_)
      · exact fun name hname => hnames name hname ',' (by simp)
      · exact fun name hname => hnames' name hname ',' (by simp)
      · rw [← String.toList_inj, String.toList_intercalate, String.toList_intercalate]
        exact hbetween

end Cell

namespace Row

theorem not_mem_fields {row : Row} (h : row.Proper) {c : Char} (hc : c = '\t' ∨ c = '\n') :
    ∀ field ∈ row.name :: row.cells.map Cell.text, c ∉ field.toList := by
  intro field hfield
  rcases List.mem_cons.mp hfield with rfl | hfield
  · refine h.name c ?_
    rcases hc with rfl | rfl <;> simp
  · obtain ⟨cell, hcell, rfl⟩ := List.mem_map.mp hfield
    exact Cell.not_mem_text (h.cells cell hcell) hc

theorem newline_not_mem_text {row : Row} (h : row.Proper) : '\n' ∉ row.text.toList := by
  rw [text, String.toList_intercalate]
  refine not_mem_intercalate (by decide) fun part hpart => ?_
  obtain ⟨field, hfield, rfl⟩ := List.mem_map.mp hpart
  exact not_mem_fields h (.inr rfl) field hfield

theorem text_inj {row row' : Row} (h : row.Proper) (h' : row'.Proper)
    (heq : row.text = row'.text) : row = row' := by
  have hfields := intercalate_inj "\t" '\t' rfl (List.cons_ne_nil _ _) (List.cons_ne_nil _ _)
    (not_mem_fields h (.inl rfl)) (not_mem_fields h' (.inl rfl)) heq
  obtain ⟨hname, hcells⟩ := List.cons.inj hfields
  have hcells := map_inj_of_mem (fun cell hcell cell' hcell' =>
    Cell.text_inj (h.cells cell hcell) (h'.cells cell' hcell')) hcells
  cases row
  cases row'
  exact congr (congrArg Row.mk hname) hcells

end Row

/-! ## The first row -/

theorem toList_headerText_cons (c : Char) (others : List Char) :
    (headerText (c :: others)).toList =
      '\t' :: ("'".toList ++ c :: ("'".toList ++ (headerText others).toList)) := by
  simp [headerText]

/-- The first row ends where no tab follows a cell. -/
theorem headerText_append_inj : ∀ {symbols symbols' : List Char} {r r' : List Char},
    (headerText symbols).toList ++ '\n' :: r = (headerText symbols').toList ++ '\n' :: r' →
    symbols = symbols' ∧ r = r'
  | [], [], _, _, h => ⟨rfl, (List.cons.inj h).2⟩
  | [], c :: others, _, _, h => by
    rw [toList_headerText_cons] at h
    exact absurd (List.cons.inj h).1 (by decide)
  | c :: others, [], _, _, h => by
    rw [toList_headerText_cons] at h
    exact absurd (List.cons.inj h).1 (by decide)
  | c :: others, c' :: others', r, r', h => by
    simp only [toList_headerText_cons, List.cons_append, List.append_assoc] at h
    obtain ⟨rfl, hrest⟩ := List.cons.inj (List.append_cancel_left (List.cons.inj h).2)
    obtain ⟨rfl, rfl⟩ := headerText_append_inj (List.append_cancel_left hrest)
    exact ⟨rfl, rfl⟩

/-! ## The whole table -/

namespace Sheet

variable {sheet sheet' : Sheet}

/-- The rows below the first one. -/
def body (sheet : Sheet) : String := "\n".intercalate (sheet.rows.map Row.text)

theorem text_of_nil (h : sheet.symbols = []) : sheet.text = sheet.body := by
  simp [text, body, h]

theorem toList_text (hrows : sheet.rows ≠ []) (h : sheet.symbols ≠ []) :
    sheet.text.toList = (headerText sheet.symbols).toList ++ '\n' :: sheet.body.toList := by
  have hempty : sheet.symbols.isEmpty = false := by simpa using h
  cases hsplit : sheet.rows with
  | nil => exact absurd hsplit hrows
  | cons row others =>
    simp [text, body, hempty, hsplit, String.toList_intercalate]

theorem body_inj (h : sheet.Proper) (h' : sheet'.Proper) (heq : sheet.body = sheet'.body) :
    sheet.rows = sheet'.rows := by
  have hends : ∀ {s : Sheet}, s.Proper → ∀ t ∈ s.rows.map Row.text, '\n' ∉ t.toList := by
    intro s hs t ht
    obtain ⟨row, hrow, rfl⟩ := List.mem_map.mp ht
    exact Row.newline_not_mem_text (hs.rows row hrow)
  have hlines := intercalate_inj "\n" '\n' rfl (by simpa using h.nonempty)
    (by simpa using h'.nonempty) (hends h) (hends h') heq
  exact map_inj_of_mem (fun row hrow row' hrow' =>
    Row.text_inj (h.rows row hrow) (h'.rows row' hrow')) hlines

/-- Without symbols there are no cells, and nowhere a tab. -/
theorem tab_not_mem_text (h : sheet.Proper) (hsymbols : sheet.symbols = []) :
    '\t' ∉ sheet.text.toList := by
  rw [text_of_nil hsymbols, body, String.toList_intercalate]
  refine not_mem_intercalate (by decide) fun part hpart => ?_
  obtain ⟨line, hline, rfl⟩ := List.mem_map.mp hpart
  obtain ⟨row, hrow, rfl⟩ := List.mem_map.mp hline
  have hcells : row.cells = [] := by
    rw [← List.length_eq_zero_iff, h.width row hrow, hsymbols, List.length_nil]
  rw [Row.text, hcells]
  simpa using (h.rows row hrow).name '\t' (by simp)

theorem tab_mem_text (h : sheet.Proper) (hsymbols : sheet.symbols ≠ []) :
    '\t' ∈ sheet.text.toList := by
  rw [toList_text h.nonempty hsymbols]
  cases hsplit : sheet.symbols with
  | nil => exact absurd hsplit hsymbols
  | cons c others =>
    rw [toList_headerText_cons]
    exact .head _

/-- **A text shows one sheet at most.** -/
theorem text_inj (h : sheet.Proper) (h' : sheet'.Proper) (heq : sheet.text = sheet'.text) :
    sheet = sheet' := by
  have hboth : sheet.symbols = sheet'.symbols ∧ sheet.body = sheet'.body := by
    by_cases hnil : sheet.symbols = []
    · by_cases hnil' : sheet'.symbols = []
      · rw [text_of_nil hnil, text_of_nil hnil'] at heq
        exact ⟨hnil.trans hnil'.symm, heq⟩
      · exact absurd (heq ▸ tab_mem_text h' hnil') (tab_not_mem_text h hnil)
    · by_cases hnil' : sheet'.symbols = []
      · exact absurd (heq ▸ tab_mem_text h hnil) (tab_not_mem_text h' hnil')
      · have hlist := congrArg String.toList heq
        rw [toList_text h.nonempty hnil, toList_text h'.nonempty hnil'] at hlist
        obtain ⟨hsymbols, hbody⟩ := headerText_append_inj hlist
        exact ⟨hsymbols, String.toList_inj.mp hbody⟩
  have hrows := body_inj h h' hboth.2
  cases sheet
  cases sheet'
  exact congr (congrArg Sheet.mk hboth.1) hrows

end Sheet

end Automaton

end CaretAutomata

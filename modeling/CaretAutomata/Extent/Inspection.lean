import CaretAutomata.Extent.Spelling
import CaretAutomata.Text.Quoted

/-! # Showing a tree in full

A tree is shown as a record of its operation and its children, which are characters or trees in
their turn: on one line by `inspect`, and by `inspectLines` with every item on a line of its own,
items four places further in than what they belong to. -/

namespace CaretAutomata.Extent

/-! ## On one line -/

def record (operation : String) (children : List String) : String :=
  "Extent \x7b operation: " ++ operation ++ ", children: [" ++ ", ".intercalate children ++ "] \x7d"

mutual

/-- The tree on one line. -/
def inspect : Extent → String
  | leaf c => "Char(" ++ Text.quoted c ++ ")"
  | concatenation parts => record "Concatenation" (inspectChildren parts)
  | union alternatives => record "Union" (inspectChildren alternatives)
  | repetition body =>
    record "Repetition" [if body.isLeaf then body.inspect else "Extent(" ++ body.inspect ++ ")"]

def inspectChildren : List Extent → List String
  | [] => []
  | child :: others =>
    (if child.isLeaf then child.inspect else "Extent(" ++ child.inspect ++ ")")
      :: inspectChildren others

end

/-! ## On several lines -/

def indent (lines : List String) : List String := lines.map ("    " ++ ·)

/-- The lines of an operation's record, the last one ended by `ending`. -/
def recordLines (ending operation : String) (children : List String) : List String :=
  let items :=
    if children.isEmpty then ["children: [],"] else "children: [" :: indent children ++ ["],"]
  "Extent \x7b" :: indent (("operation: " ++ operation ++ ",") :: items) ++ ["\x7d" ++ ending]

mutual

/-- The tree on several lines, the last one ended by `ending`. -/
def inspectLines (ending : String) : Extent → List String
  | leaf c => ["Char(", "    " ++ Text.quoted c ++ ",", ")" ++ ending]
  | concatenation parts => recordLines ending "Concatenation" (inspectChildrenLines parts)
  | union alternatives => recordLines ending "Union" (inspectChildrenLines alternatives)
  | repetition body =>
    recordLines ending "Repetition" <|
      if body.isLeaf then body.inspectLines ","
      else "Extent(" :: indent (body.inspectLines ",") ++ ["),"]

/-- The children of a tree, each ended by a comma. -/
def inspectChildrenLines : List Extent → List String
  | [] => []
  | child :: others =>
    (if child.isLeaf then child.inspectLines ","
      else "Extent(" :: indent (child.inspectLines ",") ++ ["),"]) ++ inspectChildrenLines others

end

def inspectInFull (e : Extent) : String := "\n".intercalate (e.inspectLines "")

end CaretAutomata.Extent

import CaretAutomata.Text.Hidden

/-! # Quoted characters

A character between single quotes, written so that every character can be told from every other:
the quote and the backslash have a backslash in front, four control characters have a letter of
their own, and a character without an appearance is written by its number. -/

namespace CaretAutomata.Text

/-- The number of a character in hexadecimal digits, as few as possible. -/
def codePoint (c : Char) : String :=
  "\\u\x7b" ++ String.ofList (Nat.toDigits 16 c.toNat) ++ "\x7d"

/-- The text for a character between quotes. -/
def escape (c : Char) : String :=
  match c with
  | '\x00' => "\\0"
  | '\t' => "\\t"
  | '\n' => "\\n"
  | '\r' => "\\r"
  | '\'' => "\\'"
  | '\\' => "\\\\"
  | c => if isHidden c then codePoint c else c.toString

def quoted (c : Char) : String := "'" ++ escape c ++ "'"

end CaretAutomata.Text

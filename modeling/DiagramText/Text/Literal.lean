import DiagramText.Text.Printable

/-!
# Literals

A text as it is shown in a report: between quotes, on one line and in printable characters only.  Single quotes are
used, or double quotes if that spares an escape.  The quote and the backslash are escaped by a backslash, the common
controls by a letter, and what else cannot be printed by its number.
-/

namespace DiagramText.Text

/-- A number in base sixteen, with at least `width` digits. -/
def hex (width n : Nat) : Text :=
  let digits := Nat.toDigits 16 n
  List.replicate (width - digits.length) '0' ++ digits

/-- A character by its number, in two, four or eight digits: the fewest of these that hold it. -/
def numberEscape (c : Char) : Text :=
  if c.toNat < 0x100 then "\\x".toList ++ hex 2 c.toNat
  else if c.toNat < 0x10000 then "\\u".toList ++ hex 4 c.toNat
  else "\\U".toList ++ hex 8 c.toNat

/-- A character between two quotes `q`. -/
def escape (q c : Char) : Text :=
  if c = q ∨ c = '\\' then ['\\', c]
  else if c = '\n' then "\\n".toList
  else if c = '\r' then "\\r".toList
  else if c = '\t' then "\\t".toList
  else if isPrintable c then [c]
  else numberEscape c

/-- The quote to put a text between: a double one only if there is a single one to spare and no double one. -/
def quoteFor (s : Text) : Char := if s.contains '\x27' && !s.contains '"' then '"' else '\x27'

/-- The text between quotes. -/
def literal (s : Text) : Text :=
  let q := quoteFor s
  q :: s.flatMap (escape q) ++ [q]

end DiagramText.Text

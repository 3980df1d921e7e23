/-!
# Text

A text is a list of code points: places, lengths and limits all count code points.  This module holds the character
classes that the dialects share (blanks, gaps, words) and the cuts that they make: the current line, the lines of a
text, a text without its outer blanks, the first occurrence of a part.
-/

namespace DiagramText

/-- A text, one code point after the other. -/
abbrev Text := List Char

namespace Text

/-! ### Character classes -/

/-- The 29 blanks that are stripped from labels. -/
def isBlank (c : Char) : Bool :=
  let n := c.toNat
  (9 ≤ n && n ≤ 13) || (28 ≤ n && n ≤ 32) || n == 0x85 || n == 0xA0 || n == 0x1680 ||
    (0x2000 ≤ n && n ≤ 0x200A) || n == 0x2028 || n == 0x2029 || n == 0x202F || n == 0x205F || n == 0x3000

/-- A space or a tab: the blanks inside a line. -/
def isSpace (c : Char) : Bool := c == ' ' || c == '\t'

/-- What stands between tokens and belongs to none. -/
def isGap (c : Char) : Bool := isSpace c || c == '\r'

/-- An ASCII letter or an underscore. -/
def isWordStart (c : Char) : Bool := c.isAlpha || c == '_'

/-- An ASCII letter, an ASCII digit or an underscore. -/
def isWordChar (c : Char) : Bool := c.isAlphanum || c == '_'

/-- A word: a letter or underscore, then letters, digits and underscores. -/
def isWord : Text → Bool
  | [] => false
  | c :: r => isWordStart c && r.all isWordChar

theorem isAlpha_iff {c : Char} :
    c.isAlpha = true ↔ (65 ≤ c.toNat ∧ c.toNat ≤ 90) ∨ (97 ≤ c.toNat ∧ c.toNat ≤ 122) := by
  show (decide (65 ≤ c.val ∧ c.val ≤ 90) || (decide (97 ≤ c.val) && decide (c.val ≤ 122))) = true ↔ _
  rw [Bool.or_eq_true, Bool.and_eq_true, decide_eq_true_eq, decide_eq_true_eq, decide_eq_true_eq]
  rfl

theorem isDigit_iff {c : Char} : c.isDigit = true ↔ 48 ≤ c.toNat ∧ c.toNat ≤ 57 := by
  show (decide (48 ≤ c.val) && decide (c.val ≤ 57)) = true ↔ _
  rw [Bool.and_eq_true, decide_eq_true_eq, decide_eq_true_eq]
  rfl

theorem isAlphanum_iff {c : Char} : c.isAlphanum = true ↔ c.isAlpha = true ∨ c.isDigit = true := by
  show (c.isAlpha || c.isDigit) = true ↔ _
  rw [Bool.or_eq_true]

theorem isBlank_of_isGap {c : Char} (h : isGap c = true) : isBlank c = true := by
  simp only [isGap, isSpace, Bool.or_eq_true, beq_iff_eq] at h
  rcases h with (rfl | rfl) | rfl <;> decide

/-! ### Cuts -/

/-- The text up to the end of its first line. -/
def firstLine (s : Text) : Text := s.takeWhile (· != '\n')

/-- The lines of a text; a line break at the end opens an empty last line. -/
def lines (s : Text) : List Text := s.splitOn '\n'

/-- The lines put together, a line break between two of them. -/
def unlines (ls : List Text) : Text := ['\n'].intercalate ls

/-- The text without the characters of a class at its end. -/
def trimEnd (p : Char → Bool) (s : Text) : Text := (s.reverse.dropWhile p).reverse

/-- The text without the characters of a class at both ends. -/
def trim (p : Char → Bool) (s : Text) : Text := trimEnd p (s.dropWhile p)

/-- The text without its outer blanks. -/
def strip (s : Text) : Text := trim isBlank s

/-- The text without the blanks at its end. -/
def stripEnd (s : Text) : Text := trimEnd isBlank s

/-- The words of a list, a space between two of them. -/
def unwords (ws : List Text) : Text := [' '].intercalate ws

/-- The place of the first occurrence of a part. -/
def find? (part : Text) : Text → Option Nat
  | [] => if part.isEmpty then some 0 else none
  | c :: r => if part.isPrefixOf (c :: r) then some 0 else (find? part r).map (· + 1)

/-- The order of texts by their code points, from the first on; a text comes behind those that begin it. -/
def le : Text → Text → Bool
  | [], _ => true
  | _ :: _, [] => false
  | c :: r, d :: s => c.toNat < d.toNat || (c = d && le r s)

/-- What is read after an opening quote: the value, up to the next quote or the end of the line, and the number of
characters taken up, the closing quote included if there is one. -/
def quoted (s : Text) : Text × Nat :=
  let value := s.takeWhile fun c => c != '"' && c != '\n'
  (value, value.length + if (s.drop value.length).head? = some '"' then 1 else 0)

/-- The text between double quotes. -/
def quote (s : Text) : Text := '"' :: s ++ ['"']

/-- The number of bytes of a text in UTF-8. -/
def utf8Size (s : Text) : Nat := s.foldl (fun n c => n + c.utf8Size) 0

/-- The decimal digits of a number. -/
def ofNat (n : Nat) : Text := (toString n).toList

/-- The blanks that indent a line: `size` for every level, none if the size is not positive. -/
def indent (size : Int) (depth : Nat) : Text := List.replicate (size * depth).toNat ' '

end Text

end DiagramText

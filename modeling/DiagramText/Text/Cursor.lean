import DiagramText.Text.Basic

/-!
# Places and cursors

A place is a line and a column, both counted from 1; only a line break starts a line.  A cursor stands somewhere in a
text: it knows what is left, how many characters it has passed, and the place it has come to.
-/

namespace DiagramText

/-- A line and a column, counted from 1. -/
structure Place where
  line : Nat := 1
  column : Nat := 1
deriving DecidableEq, Repr

namespace Place

/-- The place behind one character. -/
def step (p : Place) (c : Char) : Place :=
  if c = '\n' then ⟨p.line + 1, 1⟩ else ⟨p.line, p.column + 1⟩

/-- The place behind a text. -/
def after (p : Place) (s : Text) : Place := s.foldl step p

/-- The place as written in messages. -/
def render (p : Place) : Text := Text.ofNat p.line ++ ':' :: Text.ofNat p.column

end Place

/-- A reading position inside a text. -/
structure Cursor where
  /-- What has not been read. -/
  rest : Text
  /-- The number of characters passed. -/
  pos : Nat := 0
  /-- Where the rest begins. -/
  place : Place := {}
deriving DecidableEq, Repr

namespace Cursor

/-- The cursor behind the next `n` characters, or at the end if there are fewer. -/
def advance (c : Cursor) : Nat → Cursor
  | 0 => c
  | n + 1 =>
    match c.rest with
    | [] => c
    | x :: r => advance ⟨r, c.pos + 1, c.place.step x⟩ n

theorem rest_advance (c : Cursor) (n : Nat) : (c.advance n).rest = c.rest.drop n := by
  induction n generalizing c with
  | zero => rfl
  | succ n ih =>
    unfold advance
    split
    · rename_i h; simp [h]
    · rename_i x r h; rw [ih, h, List.drop_succ_cons]

theorem place_advance (c : Cursor) (n : Nat) : (c.advance n).place = c.place.after (c.rest.take n) := by
  induction n generalizing c with
  | zero => rfl
  | succ n ih =>
    unfold advance
    split
    · rename_i h; simp [h, Place.after]
    · rename_i x r h; rw [ih, h, List.take_succ_cons]; rfl

theorem pos_advance (c : Cursor) (n : Nat) : (c.advance n).pos = c.pos + min n c.rest.length := by
  induction n generalizing c with
  | zero => rw [Nat.zero_min]; rfl
  | succ n ih =>
    unfold advance
    split
    · rename_i h; simp [h]
    · rename_i x r h; rw [ih, h, List.length_cons, Nat.add_min_add_right]; dsimp only; omega

theorem advance_advance (c : Cursor) (m n : Nat) : (c.advance m).advance n = c.advance (m + n) := by
  induction m generalizing c with
  | zero => rw [Nat.zero_add]; rfl
  | succ m ih =>
    obtain ⟨rest, pos, place⟩ := c
    rw [Nat.succ_add]
    cases rest with
    | nil => cases n <;> rfl
    | cons x r => exact ih _

/-- Nothing is left. -/
def atEnd (c : Cursor) : Bool := c.rest.isEmpty

/-- The character `n` places ahead. -/
def peek? (c : Cursor) (n : Nat) : Option Char := c.rest[n]?

/-- The rest begins with `s`. -/
def startsWith (c : Cursor) (s : Text) : Bool := s.isPrefixOf c.rest

/-- What is left of the current line. -/
def line (c : Cursor) : Text := Text.firstLine c.rest

/-- Passes the next `n` characters and gives them. -/
def read (c : Cursor) (n : Nat) : Text × Cursor := (c.rest.take n, c.advance n)

/-- Passes the longest run of characters of a class and gives it. -/
def readWhile (c : Cursor) (p : Char → Bool) : Text × Cursor := c.read (c.rest.takeWhile p).length

/-- Passes the longest run of characters of a class. -/
def skipWhile (c : Cursor) (p : Char → Bool) : Cursor := (c.readWhile p).2

/-- Passes what is left of the line and gives it. -/
def readLine (c : Cursor) : Text × Cursor := c.read c.line.length

/-- Passes a string and gives what it holds.  The next character counts as the opening quote, whatever it is. -/
def readQuoted (c : Cursor) : Text × Cursor :=
  let found := Text.quoted (c.rest.drop 1)
  (found.1, c.advance (1 + found.2))

end Cursor

end DiagramText

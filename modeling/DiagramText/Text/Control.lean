import DiagramText.Text.Basic

/-!
# Control sequences

An escape character and an opening bracket begin a control sequence, which a terminal obeys and does not show: colours,
for instance.  It goes on with parameters and ends with a letter.  What is no terminal gets texts without them.
-/

namespace DiagramText.Text

/-- A character of the parameters of a control sequence. -/
def isParameter (c : Char) : Bool := c.isDigit || c == ';' || c == '?'

/-- The number of characters of the control sequence at the head of a text, zero if there is none. -/
def controlLength : Text → Nat
  | '\x1b' :: '[' :: r =>
    let parameters := r.takeWhile isParameter
    match r.drop parameters.length with
    | c :: _ => if c.isAlpha then parameters.length + 3 else 0
    | [] => 0
  | _ => 0

/-- The text behind its first `n` characters, without the control sequences that begin there. -/
def withoutControlsFrom : Nat → Text → Text
  | _, [] => []
  | n + 1, _ :: r => withoutControlsFrom n r
  | 0, c :: r =>
    match controlLength (c :: r) with
    | 0 => c :: withoutControlsFrom 0 r
    | n + 1 => withoutControlsFrom n r

/-- The text without its control sequences. -/
def withoutControls (s : Text) : Text := withoutControlsFrom 0 s

theorem controlLength_of_ne {c : Char} {r : Text} (h : c ≠ '\x1b') : controlLength (c :: r) = 0 := by
  unfold controlLength
  split
  · simp_all
  · rfl

theorem withoutControls_of_not_mem {s : Text} (h : '\x1b' ∉ s) : withoutControls s = s := by
  unfold withoutControls
  induction s with
  | nil => rfl
  | cons c r ih =>
    simp only [List.mem_cons, not_or] at h
    simp [withoutControlsFrom, controlLength_of_ne (Ne.symm h.1), ih h.2]

end DiagramText.Text

import DiagramText.Text.Cursor

/-!
# Tokens

The three dialects are cut into tokens by one loop, `tokenize`: gaps are passed over, and at every other character the
rule of the dialect says which token begins there, if any, and how far it reaches.  A rule takes up at least the
character it looks at, so the loop ends.  No text is refused: a character that begins no token is dropped.
-/

namespace DiagramText

/-- A token and the place where it begins. -/
structure Token (κ : Type) where
  kind : κ
  place : Place
deriving DecidableEq, Repr

/-- Where tokens begin in a text that ends at `finish`. -/
def startOf {κ : Type} (finish : Place) (ts : List (Token κ)) : Place := (ts.head?.map Token.place).getD finish

/-- The tokens behind a run of tokens of a class. -/
def skipTokens {κ : Type} (p : κ → Bool) (ts : List (Token κ)) : List (Token κ) := ts.dropWhile fun t => p t.kind

section

variable {κ : Type} {p : κ → Bool}

theorem skipTokens_of_pos {t : Token κ} (h : p t.kind = true) (ts : List (Token κ)) :
    skipTokens p (t :: ts) = skipTokens p ts :=
  List.dropWhile_cons_of_pos h

theorem skipTokens_of_neg {t : Token κ} (h : ¬ p t.kind = true) (ts : List (Token κ)) :
    skipTokens p (t :: ts) = t :: ts :=
  List.dropWhile_cons_of_neg h

/-- A reader that passes over one token of the class passes over the run. -/
theorem read_skipTokens {α : Type} {read : List (Token κ) → α}
    (h : ∀ t ts, p t.kind = true → read (t :: ts) = read ts) (ts : List (Token κ)) :
    read (skipTokens p ts) = read ts := by
  induction ts with
  | nil => rfl
  | cons t ts ih =>
    by_cases ht : p t.kind = true
    · rw [skipTokens_of_pos ht, ih, h t ts ht]
    · rw [skipTokens_of_neg ht]

theorem skipTokens_suffix (p : κ → Bool) (ts : List (Token κ)) : skipTokens p ts <:+ ts := List.dropWhile_suffix _

theorem suffix_of_skipTokens {t : Token κ} {ts us : List (Token κ)} (h : skipTokens p ts = t :: us) : us <:+ ts :=
  (List.suffix_cons t us).trans (h ▸ skipTokens_suffix p ts)

theorem length_of_skipTokens {t : Token κ} {ts us : List (Token κ)} (h : skipTokens p ts = t :: us) :
    us.length < ts.length := by
  have := (skipTokens_suffix p ts).length_le
  rw [h, List.length_cons] at this
  omega

/-- Behind the run the class ends. -/
theorem not_of_skipTokens {t : Token κ} {ts us : List (Token κ)} (h : skipTokens p ts = t :: us) :
    p t.kind = false := by
  have hhead := List.head?_dropWhile_not (fun t : Token κ => p t.kind) ts
  rw [show ts.dropWhile (fun t => p t.kind) = t :: us from h] at hhead
  exact hhead

end

/-- What a rule finds: a token or nothing, and the number of characters taken up behind the first. -/
structure Found (κ : Type) where
  kind : Option κ
  more : Nat := 0

/-- How a dialect reads at a character `c` with the text `r` behind it. -/
abbrev Rule (κ : Type) := (c : Char) → (r : Text) → Found κ

/-- The tokens of a text, and the place where the text ends. -/
structure Tokens (κ : Type) where
  tokens : List (Token κ)
  finish : Place
deriving DecidableEq, Repr

/-- A rule that passes over gaps. -/
def Rule.skippingGaps {κ : Type} (rule : Rule κ) : Rule κ := fun c r =>
  if Text.isGap c then ⟨none, 0⟩ else rule c r

/-- The tokens from a cursor on. -/
def tokensFrom {κ : Type} (rule : Rule κ) (cur : Cursor) : List (Token κ) :=
  match _ : cur.rest with
  | [] => []
  | c :: r =>
    let found := rule c r
    let tail := tokensFrom rule (cur.advance (found.more + 1))
    match found.kind with
    | some kind => ⟨kind, cur.place⟩ :: tail
    | none => tail
termination_by cur.rest.length
decreasing_by
  rename_i h
  rw [Cursor.rest_advance, h, List.drop_succ_cons, List.length_drop, List.length_cons]
  omega

/-- The tokens of a text. -/
def tokenize {κ : Type} (rule : Rule κ) (s : Text) : Tokens κ where
  tokens := tokensFrom rule.skippingGaps ⟨s, 0, {}⟩
  finish := Place.after {} s

end DiagramText

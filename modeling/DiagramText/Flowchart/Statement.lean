import DiagramText.Flowchart.Token
import DiagramText.Nesting

/-!
# Statements of flowchart text

The tokens are read into statements: chains of nodes and links, and the opening and closing of subgraphs.  Statements do
not nest.  A token that begins no statement is skipped.  Each function that reads gives the tokens that it leaves, which
are always the end of those that it was given.
-/

namespace DiagramText.Flowchart

/-- A node in a text: its identifier, and its shape and label if they stand beside it. -/
structure Mention where
  key : Text
  look : Option (Shape × Text) := none
deriving DecidableEq, Repr

/-- What a flowchart text says. -/
inductive Statement where
  /-- Nodes joined by links; a last link may lead nowhere. -/
  | chain (first : Mention) (links : List (Link × Mention)) (loose : Option Place)
  | opening (title : Text) (direction : Option Direction) (o : Opening)
  | closing (place : Place)
  /-- A token that begins no statement. -/
  | skipped (kind text : Text) (place : Place)
deriving DecidableEq, Repr

/-- The node that a token mentions. -/
def Kind.mention? : Kind → Option Mention
  | .word name => some ⟨name, none⟩
  | .node name shape label => some ⟨name, some (shape, label)⟩
  | _ => none

/-- The tokens behind line breaks and comments. -/
abbrev skipBreaks (ts : List (Token Kind)) : List (Token Kind) := skipTokens Kind.isBreak ts

/-- The links behind a node, the place of a last link that leads nowhere, and the tokens behind. -/
structure Tail where
  links : List (Link × Mention)
  loose : Option Place
  rest : List (Token Kind)

/-- Reads links and the nodes that they lead to. -/
def readTail (ts : List (Token Kind)) : Tail :=
  match _ : skipBreaks ts with
  | ⟨.link _ l, place⟩ :: us =>
    match _ : skipBreaks us with
    | t :: vs =>
      match t.kind.mention? with
      | some m => let tail := readTail vs; { tail with links := (l, m) :: tail.links }
      | none => ⟨[], some place, t :: vs⟩
    | [] => ⟨[], some place, []⟩
  | us => ⟨[], none, us⟩
termination_by ts.length
decreasing_by
  exact Nat.lt_trans (length_of_skipTokens ‹skipBreaks us = _›) (length_of_skipTokens ‹skipBreaks ts = _›)

theorem readTail_suffix (ts : List (Token Kind)) : (readTail ts).rest <:+ ts := by
  fun_induction readTail ts with
  | case1 ts _ l place us h t vs h' m hm tail ih =>
    exact ih.trans ((suffix_of_skipTokens h').trans (suffix_of_skipTokens h))
  | case2 ts _ l place us h t vs h' hm =>
    have hs : t :: vs <:+ us := by rw [← h']; exact skipTokens_suffix _ us
    exact hs.trans (suffix_of_skipTokens h)
  | case3 => exact List.nil_suffix
  | case4 ts h => exact skipTokens_suffix _ ts

/-- The title on the line of a subgraph: the label of a node, or words. -/
def readTitle (ts : List (Token Kind)) : Text × List (Token Kind) :=
  match ts with
  | ⟨.node _ _ label, _⟩ :: ts => (label, ts)
  | ts => let words := readWords ts; (Text.unwords words.1, words.2)
where
  /-- The words at the head of the tokens. -/
  readWords : List (Token Kind) → List Text × List (Token Kind)
    | ⟨.word w, _⟩ :: ts => (w :: (readWords ts).1, (readWords ts).2)
    | ts => ([], ts)

theorem readWords_suffix (ts : List (Token Kind)) : (readTitle.readWords ts).2 <:+ ts := by
  fun_induction readTitle.readWords ts with
  | case1 _ _ _ ih => exact ih.trans (List.suffix_cons _ _)
  | case2 ts _ => exact List.suffix_refl ts

theorem readTitle_suffix (ts : List (Token Kind)) : (readTitle ts).2 <:+ ts := by
  unfold readTitle
  split
  · exact List.suffix_cons _ _
  · exact readWords_suffix _

/-- The direction at the head of the tokens. -/
def readDirection (ts : List (Token Kind)) : Option Direction × List (Token Kind) :=
  match skipBreaks ts with
  | ⟨.direction d, _⟩ :: ts => (some d, ts)
  | ts => (none, ts)

theorem readDirection_suffix (ts : List (Token Kind)) : (readDirection ts).2 <:+ ts := by
  unfold readDirection
  split
  · rename_i h; exact suffix_of_skipTokens h
  · exact skipTokens_suffix _ ts

/-- The direction that is set where a subgraph begins. -/
def readInnerDirection (ts : List (Token Kind)) : Option Direction × List (Token Kind) :=
  match skipBreaks ts with
  | ⟨.keyword .direction, _⟩ :: ts => readDirection ts
  | ts => (none, ts)

theorem readInnerDirection_suffix (ts : List (Token Kind)) : (readInnerDirection ts).2 <:+ ts := by
  unfold readInnerDirection
  split
  · rename_i h; exact (readDirection_suffix _).trans (suffix_of_skipTokens h)
  · exact skipTokens_suffix _ ts

/-- Reads the statement that begins with the token `t`, which is no break; the text ends at `finish`. -/
def readStatement (finish : Place) (t : Token Kind) (ts : List (Token Kind)) : Statement × List (Token Kind) :=
  match t.kind.mention? with
  | some m => let tail := readTail ts; (.chain m tail.links tail.loose, tail.rest)
  | none =>
    match t.kind with
    | .opening =>
      let title := readTitle ts
      let direction := readInnerDirection title.2
      (.opening title.1 direction.1 ⟨t.place, startOf finish ts, startOf finish title.2⟩, direction.2)
    | .closing => (.closing t.place, ts)
    | kind => (.skipped kind.name kind.text t.place, ts)

theorem readStatement_suffix (finish : Place) (t : Token Kind) (ts : List (Token Kind)) :
    (readStatement finish t ts).2 <:+ ts := by
  unfold readStatement
  split
  · exact readTail_suffix ts
  · split
    · exact (readInnerDirection_suffix _).trans (readTitle_suffix ts)
    · exact List.suffix_refl ts
    · exact List.suffix_refl ts

/-- The statements of a list of tokens; the text ends at `finish`. -/
def statements (finish : Place) (ts : List (Token Kind)) : List Statement :=
  match ts with
  | [] => []
  | t :: ts =>
    if t.kind.isBreak then statements finish ts
    else
      let read := readStatement finish t ts
      read.1 :: statements finish read.2
termination_by ts.length
decreasing_by
  all_goals simp only [List.length_cons]
  · omega
  · have := (readStatement_suffix finish t ts).length_le
    omega

/-- A whole text: the direction of the chart and the statements.  The header may be missing. -/
def document (cut : Tokens Kind) : Direction × List Statement :=
  match skipBreaks cut.tokens with
  | ⟨.keyword .flowchart, _⟩ :: ts | ⟨.keyword .graph, _⟩ :: ts =>
    let direction := readDirection ts
    (direction.1.getD .topDown, statements cut.finish direction.2)
  | ts => (.topDown, statements cut.finish ts)

/-! ### Nesting -/

/-- What a statement does to the number of open subgraphs. -/
def Statement.turn : Statement → Turn
  | .opening _ _ _ => .down
  | .closing _ => .up
  | _ => .level

/-- Where the subgraph of a statement opens, if it opens one. -/
def Statement.opening? : Statement → Option Opening
  | .opening _ _ o => some o
  | _ => none

/-! ### Faults -/

/-- The errors of a statement. -/
def Statement.errors : Statement → List ParseError
  | .chain _ _ (some place) => [⟨place, .linkTarget⟩]
  | _ => []

end DiagramText.Flowchart

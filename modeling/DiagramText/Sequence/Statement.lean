import DiagramText.Nesting
import DiagramText.Sequence.Token

/-!
# Statements of sequence text

The tokens are read into statements.  Blocks are not nested there: a statement opens a block, closes the innermost one,
or begins its next branch, so reading only has to know the kinds of the blocks that are open.  A line that begins no
statement is skipped.  Each function that reads gives the tokens that it leaves, which are always the end of those that
it was given.
-/

namespace DiagramText.Sequence

/-- What a sequence text says. -/
inductive Statement where
  /-- A declared participant, perhaps with another name to display. -/
  | participant (kind : ParticipantKind) (key : Text) (display : Option Text)
  | message (source target : Text) (type : MessageType) (label : Text)
  | note (position : NotePosition) (keys : List Text) (text : Text)
  | opening (kind : BlockKind) (label : Text) (o : Opening)
  | branch (label : Text)
  | closing
  | activate (key : Text)
  | deactivate (key : Text)
  /-- A statement that cannot be read. -/
  | faulty (e : ParseError)
  /-- A line whose first token begins no statement. -/
  | skippedLine (kind : Text) (place : Place)
  /-- A line that begins with a name which no arrow follows. -/
  | noArrow (name : Text) (place : Place)
deriving DecidableEq, Repr

/-- The participant that a token names. -/
def Kind.key? : Kind → Option Text
  | .word name => some name
  | .string value => some value
  | _ => none

/-- The tokens from the end of the line on. -/
def skipLine (ts : List (Token Kind)) : List (Token Kind) := skipTokens (· != .newline) ts

theorem skipLine_suffix (ts : List (Token Kind)) : skipLine ts <:+ ts := skipTokens_suffix _ ts

/-- The comment that ends the line of the tokens. -/
def lineComment (ts : List (Token Kind)) : Text :=
  ((ts.takeWhile (·.kind != .newline)).findSome? fun t =>
    match t.kind with
    | .comment text => some text
    | _ => none).getD []

/-- Reads the rest of a line as free text: what stands behind the last token, without the comment. -/
def readText (behind : Text) (ts : List (Token Kind)) : Text × List (Token Kind) :=
  (Text.strip (behind.take (behind.length - (lineComment ts).length)), skipLine ts)

/-- Reads the text behind a colon, if there is one. -/
def readColonText (ts : List (Token Kind)) : Text × List (Token Kind) :=
  match ts with
  | ⟨.colon behind, _⟩ :: ts => readText behind ts
  | ts => ([], ts)

theorem readColonText_suffix (ts : List (Token Kind)) : (readColonText ts).2 <:+ ts := by
  unfold readColonText
  split
  · exact (skipLine_suffix _).trans (List.suffix_cons _ _)
  · exact List.suffix_refl _

/-- Reads the name to display behind `as`: a string that ends the line, or else the rest of the line. -/
def readDisplay (ts : List (Token Kind)) : Option Text × List (Token Kind) :=
  match ts with
  | ⟨.display behind, _⟩ :: ts =>
    let named : Text × List (Token Kind) := match ts with
      | [⟨.string value, _⟩] => (value, [])
      | ⟨.string value, _⟩ :: ⟨.newline, place⟩ :: us => (value, ⟨.newline, place⟩ :: us)
      | ts => readText behind ts
    (if named.1 = [] then none else some named.1, named.2)
  | ts => (none, ts)

theorem readDisplay_suffix (ts : List (Token Kind)) : (readDisplay ts).2 <:+ ts := by
  unfold readDisplay
  split
  · refine List.IsSuffix.trans ?_ (List.suffix_cons _ _)
    dsimp only
    split
    · exact List.nil_suffix
    · exact List.suffix_cons _ _
    · exact skipLine_suffix _
  · exact List.suffix_refl _

/-- Reads the position of a note. -/
def readPosition (ts : List (Token Kind)) : NotePosition × List (Token Kind) :=
  match ts with
  | ⟨.leftOf, _⟩ :: ts => (.leftOf, skipOf ts)
  | ⟨.rightOf, _⟩ :: ts => (.rightOf, skipOf ts)
  | ⟨.across, _⟩ :: ts => (.across, ts)
  | ts => (.across, ts)
where
  /-- The tokens behind the word `of`. -/
  skipOf (ts : List (Token Kind)) : List (Token Kind) :=
    match ts with
    | ⟨.word ['o', 'f'], _⟩ :: ts => ts
    | ts => ts

theorem readPosition_suffix (ts : List (Token Kind)) : (readPosition ts).2 <:+ ts := by
  have hof : ∀ us : List (Token Kind), readPosition.skipOf us <:+ us := by
    intro us
    unfold readPosition.skipOf
    split
    · exact List.suffix_cons _ _
    · exact List.suffix_refl _
  unfold readPosition
  split
  · exact (hof _).trans (List.suffix_cons _ _)
  · exact (hof _).trans (List.suffix_cons _ _)
  · exact List.suffix_cons _ _
  · exact List.suffix_refl _

/-- Reads participants with commas between them; a comma behind the last one is passed over. -/
def readKeys (ts : List (Token Kind)) : List Text × List (Token Kind) :=
  match ts with
  | t :: ⟨.comma, _⟩ :: us =>
    match t.kind.key? with
    | some key => (key :: (readKeys us).1, (readKeys us).2)
    | none => ([], ts)
  | t :: us =>
    match t.kind.key? with
    | some key => ([key], us)
    | none => ([], ts)
  | [] => ([], [])

theorem readKeys_suffix (ts : List (Token Kind)) : (readKeys ts).2 <:+ ts := by
  fun_induction readKeys ts with
  | case1 t _ us _ _ ih => exact ih.trans ((List.suffix_cons _ _).trans (List.suffix_cons _ _))
  | case2 => exact List.suffix_refl _
  | case3 => exact List.suffix_cons _ _
  | case4 => exact List.suffix_refl _
  | case5 => exact List.suffix_refl _

/-- Reads the participant of an activation mark, whose keyword stands at `place`. -/
def readMark (keyword : Text) (place : Place) (mark : Text → Statement) (ts : List (Token Kind)) :
    Statement × List (Token Kind) :=
  match ts with
  | [] => (.faulty ⟨place, .activationParticipant keyword⟩, [])
  | t :: us =>
    match t.kind.key? with
    | some key => (mark key, us)
    | none => (.faulty ⟨place, .activationParticipant keyword⟩, t :: us)

theorem readMark_suffix (keyword : Text) (place : Place) (mark : Text → Statement) (ts : List (Token Kind)) :
    (readMark keyword place mark ts).2 <:+ ts := by
  unfold readMark
  split
  · exact List.suffix_refl _
  · split
    · exact List.suffix_cons _ _
    · exact List.suffix_refl _

/-- Reads a declaration behind its keyword. -/
def readDeclaration (finish : Place) (kind : ParticipantKind) (ts : List (Token Kind)) :
    Statement × List (Token Kind) :=
  match ts with
  | [] => (.faulty ⟨finish, .participantName kind.word⟩, [])
  | t :: us =>
    match t.kind.key? with
    | some key => let display := readDisplay us; (.participant kind key display.1, display.2)
    | none => (.faulty ⟨t.place, .participantName kind.word⟩, t :: us)

theorem readDeclaration_suffix (finish : Place) (kind : ParticipantKind) (ts : List (Token Kind)) :
    (readDeclaration finish kind ts).2 <:+ ts := by
  unfold readDeclaration
  split
  · exact List.suffix_refl _
  · split
    · exact (readDisplay_suffix _).trans (List.suffix_cons _ _)
    · exact List.suffix_refl _

/-- Reads a message behind its source, which stands at `place`. -/
def readMessage (source : Text) (place : Place) (ts : List (Token Kind)) : Statement × List (Token Kind) :=
  match ts with
  | ⟨.arrow type, arrow⟩ :: us =>
    match us with
    | [] => (.faulty ⟨arrow, .messageTarget⟩, [])
    | t :: vs =>
      match t.kind.key? with
      | some target => let label := readColonText vs; (.message source target type label.1, label.2)
      | none => (.faulty ⟨arrow, .messageTarget⟩, t :: vs)
  | ts => (.noArrow source place, skipLine ts)

theorem readMessage_suffix (source : Text) (place : Place) (ts : List (Token Kind)) :
    (readMessage source place ts).2 <:+ ts := by
  unfold readMessage
  split
  · refine List.IsSuffix.trans ?_ (List.suffix_cons _ _)
    split
    · exact List.suffix_refl _
    · split
      · exact (readColonText_suffix _).trans (List.suffix_cons _ _)
      · exact List.suffix_refl _
  · exact skipLine_suffix _

/-- Reads a note behind its keyword, which stands at `place`. -/
def readNote (place : Place) (ts : List (Token Kind)) : Statement × List (Token Kind) :=
  let position := readPosition ts
  let keys := readKeys position.2
  if keys.1 = [] then (.faulty ⟨place, .noteParticipant⟩, keys.2)
  else
    let text := readColonText keys.2
    (.note position.1 keys.1 text.1, text.2)

theorem readNote_suffix (place : Place) (ts : List (Token Kind)) : (readNote place ts).2 <:+ ts := by
  unfold readNote
  dsimp only
  have h := (readKeys_suffix (readPosition ts).2).trans (readPosition_suffix ts)
  split
  · exact h
  · exact (readColonText_suffix _).trans h

/-- Reads the statement that begins with the token `t`, which is no break, inside blocks of the given kinds, the
innermost first. -/
def readStatement (finish : Place) (inside : List BlockKind) (t : Token Kind) (ts : List (Token Kind)) :
    Statement × List (Token Kind) :=
  match t.kind with
  | .declare kind => readDeclaration finish kind ts
  | .note _ => readNote t.place ts
  | .opening kind behind =>
    let label := readText behind ts
    (.opening kind label.1 ⟨t.place, startOf finish ts, startOf finish label.2⟩, label.2)
  | .activate => readMark t.kind.text t.place .activate ts
  | .deactivate => readMark t.kind.text t.place .deactivate ts
  | .word name => readMessage name t.place ts
  | .string value => readMessage value t.place ts
  | .closing => if inside = [] then skip else (.closing, ts)
  | .branch behind =>
    if inside.head? = some .alt then let label := readText behind ts; (.branch label.1, label.2) else skip
  | _ => skip
where
  /-- Skips the line. -/
  skip : Statement × List (Token Kind) := (.skippedLine t.kind.name t.place, skipLine ts)

theorem readStatement_suffix (finish : Place) (inside : List BlockKind) (t : Token Kind) (ts : List (Token Kind)) :
    (readStatement finish inside t ts).2 <:+ ts := by
  unfold readStatement
  split
  · exact readDeclaration_suffix _ _ _
  · exact readNote_suffix _ _
  · exact skipLine_suffix _
  · exact readMark_suffix _ _ _ _
  · exact readMark_suffix _ _ _ _
  · exact readMessage_suffix _ _ _
  · exact readMessage_suffix _ _ _
  · split
    · exact skipLine_suffix _
    · exact List.suffix_refl _
  · split <;> exact skipLine_suffix _
  · exact skipLine_suffix _

/-- What a statement does to the number of open blocks. -/
def Statement.turn : Statement → Turn
  | opening _ _ _ => .down
  | closing => .up
  | _ => .level

/-- Where the block of a statement opens, if it opens one. -/
def Statement.opening? : Statement → Option Opening
  | opening _ _ o => some o
  | _ => none

/-- The kinds of the open blocks behind a statement. -/
def Statement.inside (st : Statement) (inside : List BlockKind) : List BlockKind :=
  match st with
  | opening kind _ _ => kind :: inside
  | closing => inside.tail
  | _ => inside

/-- The statements of a list of tokens inside blocks of the given kinds; the text ends at `finish`. -/
def statements (finish : Place) (inside : List BlockKind) (ts : List (Token Kind)) : List Statement :=
  match ts with
  | [] => []
  | t :: ts =>
    if t.kind.isBreak then statements finish inside ts
    else
      let read := readStatement finish inside t ts
      read.1 :: statements finish (read.1.inside inside) read.2
termination_by ts.length
decreasing_by
  all_goals simp only [List.length_cons]
  · omega
  · have := (readStatement_suffix finish inside t ts).length_le
    omega

/-- The statements of a text: the header may be missing. -/
def document (cut : Tokens Kind) : List Statement :=
  match skipTokens Kind.isBreak cut.tokens with
  | ⟨.header, _⟩ :: ts => statements cut.finish [] ts
  | ts => statements cut.finish [] ts

/-! ### Faults -/

/-- The error of a statement. -/
def Statement.error? : Statement → Option ParseError
  | faulty e => some e
  | _ => none

end DiagramText.Sequence

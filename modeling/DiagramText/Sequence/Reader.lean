import DiagramText.Sequence.Draft

/-!
# Reading sequence text

A text is cut into tokens, the tokens are read into statements, and the statements make a draft, whose diagram is the
result.  Along the way it is noted which lines are skipped, which deactivations find nothing to end, and which blocks
are still open at the end.  Reading stops at a block for which the stack has no room.
-/

namespace DiagramText.Sequence

/-- What is noted for a statement that is added to a draft. -/
def Statement.notices (d : Draft) : Statement → List Notice
  | .deactivate key =>
    let d := d.mention key
    if (closeLast (d.id key) d.next d.activations).isSome then []
    else [.notActive (((d.participants.get? key).map Participant.name).getD [])]
  | .skippedLine kind place => [.skippedLine kind place]
  | .noArrow name place => [.noArrow name place]
  | _ => []

/-- What is noted for a list of statements that are added to a draft.  `openers` are the opening words of the open
blocks and their places, the innermost first.  If reading was `stopped`, nothing is said of the end of the text. -/
def notices (stopped : Bool) (d : Draft) (openers : List (Text × Place)) : List Statement → List Notice
  | [] => if stopped then [] else openers.map fun o => .openAtEnd o.1 o.2
  | st :: sts =>
    let openers' := match st with
      | .opening kind _ o => (kind.word, o.place) :: openers
      | .closing => openers.tail
      | _ => openers
    st.notices d ++ notices stopped (d.add st) openers' sts

/-- The statements that are read: those in front of the first block for which there is no room. -/
def front (stack : Stack) (sts : List Statement) : List Statement := Depth.front Statement.turn stack.blocks 0 sts

/-- The first block for which there is no room, if there is one. -/
def stop? (stack : Stack) (sts : List Statement) : Option Opening :=
  (Depth.rest Statement.turn stack.blocks 0 sts).head?.bind Statement.opening?

/-- The errors of the statements that are read, and that of a block for which there is no room. -/
def errorsIn (stack : Stack) (sts : List Statement) : List ParseError :=
  (front stack sts).filterMap Statement.error? ++ (stop? stack sts).toList.map stack.error

/-- What is noted for the statements that are read. -/
def noticesIn (stack : Stack) (sts : List Statement) : List Notice :=
  notices (stop? stack sts).isSome {} [] (front stack sts) ++ (stop? stack sts).toList.map stack.notice

/-- Reads a text. -/
def read (stack : Stack) (s : Text) : Reading Diagram :=
  let cut := tokenize rule s
  let sts := document cut
  .ofFaults (Draft.ofStatements (front stack sts)).toDiagram (errorsIn stack sts)
    (.tokenCount (cut.tokens.length + 1) :: noticesIn stack sts)

end DiagramText.Sequence

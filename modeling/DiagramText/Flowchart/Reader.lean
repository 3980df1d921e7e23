import DiagramText.Flowchart.Draft

/-!
# Reading flowchart text

A text is cut into tokens, the tokens are read into statements, and the statements make a draft, whose diagram is the
result.  Along the way it is noted which tokens are skipped and which subgraphs are still open at the end.  Reading
stops at a subgraph for which the stack has no room.
-/

namespace DiagramText.Flowchart

/-- What is noted for a list of statements when the subgraphs opened at `inside` are open, the innermost first.  If
reading was `stopped`, nothing is said of the end of the text. -/
def notices (stopped : Bool) (inside : List Place) : List Statement → List Notice
  | [] => if stopped then [] else inside.map (.openAtEnd subgraphWord)
  | .chain _ _ _ :: sts => notices stopped inside sts
  | .opening _ _ o :: sts => notices stopped (o.place :: inside) sts
  | .closing place :: sts =>
    match inside with
    | [] => .skippedText Kind.closing.name Kind.closing.text place :: notices stopped [] sts
    | _ :: inside => notices stopped inside sts
  | .skipped kind text place :: sts => .skippedText kind text place :: notices stopped inside sts

/-- The statements that are read: those in front of the first subgraph for which there is no room. -/
def front (stack : Stack) (sts : List Statement) : List Statement :=
  Depth.front Statement.turn stack.subgraphs 0 sts

/-- The first subgraph for which there is no room, if there is one. -/
def stop? (stack : Stack) (sts : List Statement) : Option Opening :=
  (Depth.rest Statement.turn stack.subgraphs 0 sts).head?.bind Statement.opening?

/-- The errors of the statements that are read, and that of a subgraph for which there is no room. -/
def errorsIn (stack : Stack) (sts : List Statement) : List ParseError :=
  (front stack sts).flatMap Statement.errors ++ (stop? stack sts).toList.map stack.error

/-- What is noted for the statements that are read. -/
def noticesIn (stack : Stack) (sts : List Statement) : List Notice :=
  notices (stop? stack sts).isSome [] (front stack sts) ++ (stop? stack sts).toList.map stack.notice

/-- Reads a text. -/
def read (stack : Stack) (s : Text) : Reading Diagram :=
  let cut := tokenize rule s
  let doc := document cut
  .ofFaults ((Draft.ofStatements (front stack doc.2)).toDiagram doc.1) (errorsIn stack doc.2)
    (.tokenCount (cut.tokens.length + 1) :: noticesIn stack doc.2)

end DiagramText.Flowchart

import DiagramText.Er.Schema

/-!
# Reading entity-relationship text

A text is cut into tokens, the tokens are read into statements, and the statements make a schema, whose diagram is the
result.  Along the way it is noted which entities are new and which tokens are skipped.
-/

namespace DiagramText.Er

/-- What is noted for a statement when the entities of `known` have been mentioned before it. -/
def Statement.notices (known : List Text) : Statement → List Notice
  | .mention name | .block name _ _ => new known name
  | .relation r => new known r.source ++ new (r.source :: known) r.target
  | .untargeted _ => []
  | .skipped kind place => [.skippedToken kind place]
where
  /-- Notes an entity that is not known. -/
  new (known : List Text) (name : Text) : List Notice := if known.contains name then [] else [.created name]

/-- What is noted for a list of statements. -/
def notices (s : Schema) : List Statement → List Notice
  | [] => []
  | st :: sts => st.notices s.names ++ notices (s.add st) sts

/-- Reads a text. -/
def read (s : Text) : Reading Diagram :=
  let cut := tokenize rule s
  let sts := document cut.tokens
  .ofFaults (Schema.ofStatements sts).toDiagram (sts.flatMap (·.errors cut.finish))
    (.tokenCount (cut.tokens.length + 1) :: notices {} sts)

end DiagramText.Er

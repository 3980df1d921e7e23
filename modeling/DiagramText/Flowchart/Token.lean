import DiagramText.Token
import DiagramText.Flowchart.Link
import DiagramText.Flowchart.Shape

/-!
# Tokens of flowchart text

Words, nodes, links and a few reserved words.  A word with a shape behind it, perhaps after blanks, is one token: a
node with its label.
-/

namespace DiagramText.Flowchart

/-- The tokens of the dialect. -/
inductive Kind where
  | keyword (k : Keyword)
  | direction (d : Direction)
  | word (name : Text)
  | node (name : Text) (shape : Shape) (label : Text)
  | link (symbol : Text) (l : Link)
  | opening
  | closing
  | newline
  | comment (text : Text)
deriving DecidableEq, Repr

namespace Kind

/-- The name of a token's type. -/
def name : Kind → Text
  | keyword _ => "KEYWORD".toList
  | direction _ => "DIRECTION".toList
  | word _ => "IDENTIFIER".toList
  | node _ _ _ => "NODE_TEXT".toList
  | link _ _ => "LINK".toList
  | opening => "SUBGRAPH".toList
  | closing => "END".toList
  | newline => "NEWLINE".toList
  | comment _ => "COMMENT".toList

/-- The text of a token; that of a node is its identifier. -/
def text : Kind → Text
  | keyword k => k.word
  | direction d => d.word
  | word name => name
  | node name _ _ => name
  | link symbol _ => symbol
  | opening => subgraphWord
  | closing => endWord
  | newline => ['\n']
  | comment text => text

/-- The token that a reserved word is. -/
def ofReserved? (w : Text) : Option Kind :=
  if w = subgraphWord then some opening
  else if w = endWord then some closing
  else (Keyword.ofWord? w).map keyword <|> (Direction.ofWord? w).map direction

/-- A line break or a comment. -/
def isBreak : Kind → Bool
  | newline | comment _ => true
  | _ => false

end Kind

/-- The token that begins with a word, when `behind` is the text behind the word. -/
def wordRule (w behind : Text) : Found Kind :=
  match Kind.ofReserved? w with
  | some kind => ⟨some kind, w.length - 1⟩
  | none =>
    let gap := behind.takeWhile Text.isSpace
    match readShape (behind.drop gap.length) with
    | some found => ⟨some (.node w found.shape found.label), w.length + gap.length + found.length - 1⟩
    | none => ⟨some (.word w), w.length - 1⟩

/-- The token at a character. -/
def rule : Rule Kind := fun c r =>
  if c = '\n' then ⟨some .newline, 0⟩
  else if c = '%' ∧ r.head? = some '%' then
    let text := c :: Text.firstLine r
    ⟨some (.comment text), text.length - 1⟩
  else match readLink (c :: r) with
    | some found => ⟨some (.link ((c :: r).take found.length) found.link), found.length - 1⟩
    | none =>
      if Text.isWordStart c then
        let rest := r.takeWhile Text.isWordChar
        wordRule (c :: rest) (r.drop rest.length)
      else ⟨none, 0⟩

end DiagramText.Flowchart

import DiagramText.Token
import DiagramText.Er.Basic

/-!
# Tokens of entity-relationship text

Words, braces, colons, strings and the symbols of relations.  The markers `PK`, `FK` and `UK` are words in any letter
case.  An opening brace is always a token of its own; a closing brace may also begin the symbol of a relation.
-/

namespace DiagramText.Er

/-- The tokens of the dialect. -/
inductive Kind where
  | header
  | word (name : Text)
  | openBrace
  | closeBrace
  | relation (symbol : Text)
  | colon
  | string (value : Text)
  | key (key : Key) (spelling : Text)
  | newline
  | comment (text : Text)
deriving DecidableEq, Repr

/-- The word that opens a text of the dialect. -/
def headerWord : Text := "erDiagram".toList

/-- The marker as it is written. -/
def Key.word : Key → Text
  | .primary => "PK".toList
  | .foreign => "FK".toList
  | .unique => "UK".toList

/-- The marker that a word spells, in any letter case. -/
def Key.ofWord? (word : Text) : Option Key :=
  [Key.primary, Key.foreign, Key.unique].find? fun k => k.word = word.map Char.toUpper

namespace Kind

/-- The name of a token's type. -/
def name : Kind → Text
  | header => "KEYWORD".toList
  | word _ => "IDENTIFIER".toList
  | openBrace => "OPEN_BRACE".toList
  | closeBrace => "CLOSE_BRACE".toList
  | relation _ => "RELATION".toList
  | colon => "COLON".toList
  | string _ => "STRING".toList
  | key _ _ => "ATTRIBUTE_KEY".toList
  | newline => "NEWLINE".toList
  | comment _ => "COMMENT".toList

/-- The text of a token; that of a string is what stands between the quotes. -/
def text : Kind → Text
  | header => headerWord
  | word name => name
  | openBrace => ['\x7b']
  | closeBrace => ['\x7d']
  | relation symbol => symbol
  | colon => [':']
  | string value => value
  | key _ spelling => spelling
  | newline => ['\n']
  | comment text => text

/-- The token that a word is. -/
def ofWord (w : Text) : Kind :=
  if w = headerWord then header
  else match Key.ofWord? w with
    | some k => key k w
    | none => word w

/-- A line break or a comment. -/
def isBreak : Kind → Bool
  | newline | comment _ => true
  | _ => false

end Kind

/-- The symbol of a relation at the beginning of a text. -/
def relationSymbol? (s : Text) : Option Text :=
  let symbol := s.take 6
  if (Cardinality.ofSymbol? (symbol.take 2)).isSome ∧ (Cardinality.ofSymbol? (symbol.drop 4)).isSome ∧
      ((symbol.drop 2).take 2 = lineSymbol true ∨ (symbol.drop 2).take 2 = lineSymbol false) then some symbol
  else none

/-- The token at a character. -/
def rule : Rule Kind := fun c r =>
  if c = '%' ∧ r.head? = some '%' then
    let text := c :: Text.firstLine r
    ⟨some (.comment text), text.length - 1⟩
  else if c = '\n' then ⟨some .newline, 0⟩
  else if c = '\x7b' then ⟨some .openBrace, 0⟩
  else if c = ':' then ⟨some .colon, 0⟩
  else if c = '"' then
    let found := Text.quoted r
    ⟨some (.string found.1), found.2⟩
  else match relationSymbol? (c :: r) with
    | some symbol => ⟨some (.relation symbol), symbol.length - 1⟩
    | none =>
      if c = '\x7d' then ⟨some .closeBrace, 0⟩
      else if Text.isWordStart c then
        let word := c :: r.takeWhile Text.isWordChar
        ⟨some (.ofWord word), word.length - 1⟩
      else ⟨none, 0⟩

end DiagramText.Er

import DiagramText.Token
import DiagramText.Sequence.Basic

/-!
# Tokens of sequence text

Words, strings, arrows, colons, commas and many reserved words.  A token behind which free text may stand carries that
text: all that is left of its line.
-/

namespace DiagramText.Sequence

/-- The tokens of the dialect; `behind` is what is left of the line behind the token. -/
inductive Kind where
  | header
  | declare (kind : ParticipantKind)
  | arrow (type : MessageType)
  | word (name : Text)
  | string (value : Text)
  | colon (behind : Text)
  | comma
  | note (spelling : Text)
  | across
  | leftOf
  | rightOf
  | opening (block : BlockKind) (behind : Text)
  | branch (behind : Text)
  | closing
  | activate
  | deactivate
  | display (behind : Text)
  | newline
  | comment (text : Text)
deriving DecidableEq, Repr

namespace Kind

/-- The name of a token's type. -/
def name : Kind → Text
  | header => "KEYWORD".toList
  | declare .participant => "PARTICIPANT".toList
  | declare .actor => "ACTOR".toList
  | arrow _ => "MESSAGE_ARROW".toList
  | word _ => "IDENTIFIER".toList
  | string _ => "STRING".toList
  | colon _ => "COLON".toList
  | comma => "COMMA".toList
  | note _ => "NOTE".toList
  | across => "OVER".toList
  | leftOf => "LEFT_OF".toList
  | rightOf => "RIGHT_OF".toList
  | opening .loop _ => "LOOP".toList
  | opening .opt _ => "OPT".toList
  | opening .alt _ => "ALT".toList
  | branch _ => "ELSE".toList
  | closing => "END".toList
  | activate => "ACTIVATE".toList
  | deactivate => "DEACTIVATE".toList
  | display _ => "AS".toList
  | newline => "NEWLINE".toList
  | comment _ => "COMMENT".toList

/-- The text of a token; that of a string is what stands between the quotes. -/
def text : Kind → Text
  | header => "sequenceDiagram".toList
  | declare kind => kind.word
  | arrow type => type.symbol
  | word name => name
  | string value => value
  | colon _ => [':']
  | comma => [',']
  | note spelling => spelling
  | across => "over".toList
  | leftOf => "left".toList
  | rightOf => "right".toList
  | opening block _ => block.word
  | branch _ => "else".toList
  | closing => "end".toList
  | activate => "activate".toList
  | deactivate => "deactivate".toList
  | display _ => "as".toList
  | newline => ['\n']
  | comment text => text

/-- The reserved words as tokens in front of a text. -/
def reservedTokens (behind : Text) : List Kind :=
  [header, declare .participant, declare .actor, note "Note".toList, note "note".toList, across, leftOf, rightOf,
    opening .loop behind, opening .alt behind, branch behind, opening .opt behind, closing, activate, deactivate,
    display behind]

/-- The token that a word is, in front of a text. -/
def ofWord (w behind : Text) : Kind := ((reservedTokens behind).find? (·.text = w)).getD (word w)

/-- A line break or a comment. -/
def isBreak : Kind → Bool
  | newline | comment _ => true
  | _ => false

end Kind

/-- The words that cannot name a participant without quotes. -/
def reserved : List Text := (Kind.reservedTokens []).map Kind.text

/-- The token at a character. -/
def rule : Rule Kind := fun c r =>
  if c = '\n' then ⟨some .newline, 0⟩
  else if c = ':' then ⟨some (.colon (Text.firstLine r)), 0⟩
  else if c = ',' then ⟨some .comma, 0⟩
  else if c = '%' ∧ r.head? = some '%' then
    let text := c :: Text.firstLine r
    ⟨some (.comment text), text.length - 1⟩
  else match MessageType.all.find? fun type => type.symbol.isPrefixOf (c :: r) with
    | some type => ⟨some (.arrow type), type.symbol.length - 1⟩
    | none =>
      if c = '"' then
        let found := Text.quoted r
        ⟨some (.string found.1), found.2⟩
      else if Text.isWordStart c then
        let rest := r.takeWhile Text.isWordChar
        ⟨some (.ofWord (c :: rest) (Text.firstLine (r.drop rest.length))), rest.length⟩
      else ⟨none, 0⟩

end DiagramText.Sequence

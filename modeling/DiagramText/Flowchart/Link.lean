import DiagramText.Flowchart.Basic

/-!
# Links in text

A link is written as a symbol, with its label between pipes behind it (`-->|label|`) or inside it (`-- label -->`).
The forms with pipes are tried first, then the inner ones, then the bare symbols, each for all types in one order.
-/

namespace DiagramText.Flowchart

namespace LinkType

/-- The types in the order in which they are tried; a symbol comes before those that it begins with. -/
def all : List LinkType := [arrow, line, dottedArrow, dotted, thickArrow, thick, invisible]

/-- The name of the type. -/
def name : LinkType → Text
  | arrow => "arrow".toList
  | line => "open".toList
  | dotted => "dotted".toList
  | dottedArrow => "dotted-arrow".toList
  | thick => "thick".toList
  | thickArrow => "thick-arrow".toList
  | invisible => "invisible".toList

/-- The bare symbol. -/
def symbol : LinkType → Text
  | arrow => "-->".toList
  | line => "---".toList
  | dotted => "-.-".toList
  | dottedArrow => "-.->".toList
  | thick => "===".toList
  | thickArrow => "==>".toList
  | invisible => "~~~".toList

/-- How a label is written inside a symbol: what comes before it and behind it, and the character it cannot hold. -/
structure Inline where
  opener : Text
  closer : Text
  bar : Char

/-- The inner form of a type; an invisible link has none. -/
def inline? : LinkType → Option Inline
  | arrow => some ⟨"--".toList, "-->".toList, '-'⟩
  | line => some ⟨"--".toList, "---".toList, '-'⟩
  | dotted => some ⟨"-.".toList, ".-".toList, '.'⟩
  | dottedArrow => some ⟨"-.".toList, ".->".toList, '.'⟩
  | thick => some ⟨"==".toList, "===".toList, '='⟩
  | thickArrow => some ⟨"==".toList, "==>".toList, '='⟩
  | invisible => none

end LinkType

/-- A link, and the number of characters that it takes up. -/
structure Linked where
  link : Link
  length : Nat
deriving DecidableEq, Repr

/-- The label that a text stands for: its outer blanks are dropped, and an empty one is none. -/
def label? (s : Text) : Option Text :=
  let label := Text.strip s
  if label = [] then none else some label

/-- Reads a symbol with a label between pipes. -/
def readPiped (s : Text) (type : LinkType) : Option Linked :=
  if type.symbol.isPrefixOf s then
    let behind := s.drop type.symbol.length
    let gap := behind.takeWhile Text.isSpace
    let piped := behind.drop gap.length
    if piped.head? = some '|' then
      let label := (piped.drop 1).takeWhile fun c => c != '|' && c != '\n'
      if (piped.drop (1 + label.length)).head? = some '|' then
        some ⟨⟨type, label? label⟩, type.symbol.length + gap.length + label.length + 2⟩
      else none
    else none
  else none

/-- Reads a symbol with a label inside, which a space sets off on either side. -/
def readInline (s : Text) (type : LinkType) : Option Linked :=
  type.inline?.bind fun form =>
    let opener := form.opener ++ [' ']
    if opener.isPrefixOf s then
      let body := (s.drop opener.length).takeWhile fun c => c != form.bar && c != '\n'
      if 2 ≤ body.length ∧ body.getLast? = some ' ' ∧ form.closer.isPrefixOf (s.drop (opener.length + body.length))
      then some ⟨⟨type, label? body.dropLast⟩, opener.length + body.length + form.closer.length⟩
      else none
    else none

/-- Reads a bare symbol. -/
def readBare (s : Text) (type : LinkType) : Option Linked :=
  if type.symbol.isPrefixOf s then some ⟨⟨type, none⟩, type.symbol.length⟩ else none

/-- Reads a link at the head of a text. -/
def readLink (s : Text) : Option Linked :=
  LinkType.all.findSome? (readPiped s) <|> LinkType.all.findSome? (readInline s) <|>
    LinkType.all.findSome? (readBare s)

/-- A link as it is written: with its label between pipes, or inside if the label holds a pipe and the inner form can
hold it.  An empty label is left out. -/
def Link.format (l : Link) : Text :=
  match l.label with
  | none | some [] => l.type.symbol
  | some (c :: r) =>
    let label := c :: r
    let piped := l.type.symbol ++ '|' :: label ++ ['|']
    match l.type.inline? with
    | some form =>
      if label.contains '|' && !label.contains form.bar then
        form.opener ++ ' ' :: label ++ ' ' :: form.closer
      else piped
    | none => piped

end DiagramText.Flowchart

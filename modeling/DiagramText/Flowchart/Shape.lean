import DiagramText.Flowchart.Basic

/-!
# Shapes in text

A shape is written as a pair of brackets around the label of a node.  Several shapes share an opening bracket, and one
opening bracket may begin another, so a label is read with all the shapes of the longest opening bracket in view: the
closing bracket that comes first decides.  A label in double quotes may hold brackets itself.
-/

namespace DiagramText.Flowchart

namespace Shape

/-- The shapes in their fixed order, which decides between closing brackets at one place. -/
def all : List Shape :=
  [rectangle, rounded, stadium, subroutine, cylinder, circle, doubleCircle, asymmetric, rhombus, hexagon,
    parallelogram, parallelogramAlt, trapezoid, trapezoidAlt]

/-- The name of the shape. -/
def name : Shape → Text
  | rectangle => "rectangle".toList
  | rounded => "rounded".toList
  | stadium => "stadium".toList
  | subroutine => "subroutine".toList
  | cylinder => "cylinder".toList
  | circle => "circle".toList
  | doubleCircle => "double-circle".toList
  | asymmetric => "asymmetric".toList
  | rhombus => "rhombus".toList
  | hexagon => "hexagon".toList
  | parallelogram => "parallelogram".toList
  | parallelogramAlt => "parallelogram-alt".toList
  | trapezoid => "trapezoid".toList
  | trapezoidAlt => "trapezoid-alt".toList

/-- The opening bracket. -/
def opener : Shape → Text
  | rectangle => "[".toList
  | rounded => "(".toList
  | stadium => "([".toList
  | subroutine => "[[".toList
  | cylinder => "[(".toList
  | circle => "((".toList
  | doubleCircle => "(((".toList
  | asymmetric => ">".toList
  | rhombus => "\x7b".toList
  | hexagon => "\x7b\x7b".toList
  | parallelogram => "[/".toList
  | parallelogramAlt => "[\\".toList
  | trapezoid => "[/".toList
  | trapezoidAlt => "[\\".toList

/-- The closing bracket. -/
def closer : Shape → Text
  | rectangle => "]".toList
  | rounded => ")".toList
  | stadium => "])".toList
  | subroutine => "]]".toList
  | cylinder => ")]".toList
  | circle => "))".toList
  | doubleCircle => ")))".toList
  | asymmetric => "]".toList
  | rhombus => "\x7d".toList
  | hexagon => "\x7d\x7d".toList
  | parallelogram => "/]".toList
  | parallelogramAlt => "\\]".toList
  | trapezoid => "\\]".toList
  | trapezoidAlt => "/]".toList

/-- The shapes with the longest opening bracket at the head of a text. -/
def candidates (s : Text) : List Shape :=
  let opened := all.filter fun sh => sh.opener.isPrefixOf s
  let longest := (opened.map (·.opener.length)).foldl max 0
  opened.filter fun sh => sh.opener.length = longest

end Shape

/-- A shape with its label, and the number of characters that they take up. -/
structure Shaped where
  shape : Shape
  label : Text
  length : Nat
deriving DecidableEq, Repr

/-- The label in double quotes behind an opening bracket, if a closing bracket follows it. -/
def readQuotedLabel (shapes : List Shape) (body : Text) : Option Shaped :=
  if body.head? = some '"' then
    let label := (body.drop 1).takeWhile (· != '"')
    let behind := body.drop (1 + label.length)
    if behind.head? = some '"' then
      (shapes.find? fun sh => sh.closer.isPrefixOf (behind.drop 1)).map fun sh =>
        ⟨sh, label, sh.opener.length + label.length + 2 + sh.closer.length⟩
    else none
  else none

/-- The shape whose closing bracket comes first, and where; the earlier shape of the list if two come at one place. -/
def firstClosed (shapes : List Shape) (body : Text) : Option (Shape × Nat) :=
  shapes.foldl (fun best sh =>
    match best, Text.find? sh.closer body with
    | some (_, i), some j => if j < i then some (sh, j) else best
    | none, some j => some (sh, j)
    | _, none => best) none

/-- The label up to the first closing bracket. -/
def readClosedLabel (shapes : List Shape) (body : Text) : Option Shaped :=
  (firstClosed shapes body).map fun (sh, i) =>
    ⟨sh, Text.strip (body.take i), sh.opener.length + i + sh.closer.length⟩

/-- Reads a shape with its label at the head of a text.  A label that is not closed runs to the end of the line. -/
def readShape (s : Text) : Option Shaped :=
  match Shape.candidates s with
  | [] => none
  | sh :: shapes =>
    let body := (Text.firstLine s).drop sh.opener.length
    (readQuotedLabel (sh :: shapes) body) <|> (readClosedLabel (sh :: shapes) body) <|>
      some ⟨sh, Text.strip body, sh.opener.length + body.length⟩

/-- The characters that occur in brackets. -/
def isBracket (c : Char) : Bool := "[]()\x7b\x7d<>/\\".toList.contains c

/-- A label as it is written between brackets: in quotes if it has outer blanks or holds a bracket, unless it holds a
quote itself. -/
def formatLabel (label : Text) : Text :=
  if (label != Text.strip label || label.any isBracket) && !label.contains '"' then Text.quote label else label

end DiagramText.Flowchart

import DiagramText.Er.Token
import DiagramText.Keyed
import DiagramText.Sorting

/-!
# Writing entity-relationship text

The header comes first, then the relations in order, then the entities by name: those with attributes as blocks, and
those without only if no relation mentions them.  A relation with an unknown end is left out.
-/

namespace DiagramText.Er

/-- The relation with the names of its ends in place of their ids, if both are known. -/
def Diagram.resolve? (d : Diagram) (r : Relation Id) : Option (Relation Text) :=
  match d.entity? r.source, d.entity? r.target with
  | some source, some target => some { r with source := source.name, target := target.name }
  | _, _ => none

/-- The relations whose ends are both known. -/
def Diagram.resolved (d : Diagram) : List (Relation Id) := d.relations.filter fun r => (d.resolve? r).isSome

/-- The ids that relations mention. -/
def Diagram.related (d : Diagram) : List Id := d.resolved.flatMap fun r => [r.source, r.target]

/-- A label can do without quotes if it is read as a word. -/
def isBareLabel (label : Text) : Bool :=
  Text.isWord label && label.map Char.toUpper != headerWord.map Char.toUpper && (Key.ofWord? label).isNone

def formatLabel (label : Text) : Text := if isBareLabel label then label else Text.quote label

/-- The line of a relation, without its indent.  An empty label is left out. -/
def Relation.line (r : Relation Text) : Text :=
  r.source ++ ' ' :: encodeSymbol r.sourceCardinality r.targetCardinality r.identifying ++ ' ' :: r.target ++
    match r.label with
    | some (c :: label) => " : ".toList ++ formatLabel (c :: label)
    | _ => []

/-- The line of an attribute, without its indent.  An empty comment is left out. -/
def Attribute.line (a : Attribute) : Text :=
  Text.unwords ([a.type, a.name] ++ a.keys.map Key.word ++
    match a.comment with
    | some (c :: comment) => [Text.quote (c :: comment)]
    | _ => [])

/-- The lines of an entity: its block, or its name if it has no attributes and is not mentioned elsewhere. -/
def Entity.lines (size : Int) (related : List Id) (e : Entity) : List Text :=
  if e.attributes ≠ [] then
    [Text.indent size 1 ++ e.name ++ " \x7b".toList] ++
      e.attributes.map (fun a => Text.indent size 2 ++ a.line) ++ [Text.indent size 1 ++ "\x7d".toList]
  else if e.id ∈ related then []
  else [Text.indent size 1 ++ e.name]

/-- The entities by name; entities of one name keep their order. -/
def Diagram.sorted (d : Diagram) : List Entity := sortBy (fun a b => Text.le a.name b.name) d.entities

/-- The lines of a diagram, with `size` blanks for each level of indentation. -/
def Diagram.lines (size : Int) (d : Diagram) : List Text :=
  headerWord :: (d.relations.filterMap d.resolve?).map (fun r => Text.indent size 1 ++ r.line) ++
    d.sorted.flatMap (·.lines size d.related)

/-- The text of a diagram. -/
def Diagram.write (size : Int) (d : Diagram) : Text := Text.unlines (d.lines size)

end DiagramText.Er

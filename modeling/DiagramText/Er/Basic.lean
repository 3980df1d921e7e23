import DiagramText.Id
import DiagramText.Layout

/-!
# Entity-relationship diagrams

Entities own their attributes; a relation joins two entities, with a cardinality at each end.  Relations name their
ends by any kind of reference: by id in a diagram, by name in a text.
-/

namespace DiagramText.Er

/-- How many of one entity a relation allows. -/
inductive Cardinality where
  | exactlyOne
  | zeroOrOne
  | oneOrMore
  | zeroOrMore
deriving DecidableEq, Repr

/-- A marker behind an attribute. -/
inductive Key where
  | primary
  | foreign
  | unique
deriving DecidableEq, Repr

/-- A column of an entity. -/
structure Attribute where
  name : Text
  type : Text
  isPrimaryKey : Bool := false
  isForeignKey : Bool := false
  isUnique : Bool := false
  isNullable : Bool := true
  comment : Option Text := none
deriving DecidableEq, Repr

/-- The markers of an attribute in their fixed order.  A primary key is unique anyway, so it is not marked as such. -/
def Attribute.keys (a : Attribute) : List Key :=
  (if a.isPrimaryKey then [.primary] else []) ++ (if a.isForeignKey then [.foreign] else []) ++
    (if a.isUnique && !a.isPrimaryKey then [.unique] else [])

structure Entity where
  id : Id
  name : Text
  attributes : List Attribute := []
  position : Position := {}
deriving DecidableEq, Repr

/-- A relation between two entities, which are referred to by `ι`. -/
structure Relation (ι : Type) where
  source : ι
  target : ι
  sourceCardinality : Cardinality := .exactlyOne
  targetCardinality : Cardinality := .exactlyOne
  identifying : Bool := true
  label : Option Text := none
deriving DecidableEq, Repr

/-- The relation with other references. -/
def Relation.map {ι κ : Type} (f : ι → κ) (r : Relation ι) : Relation κ :=
  { r with source := f r.source, target := f r.target }

structure Diagram where
  entities : List Entity := []
  relations : List (Relation Id) := []
deriving DecidableEq, Repr

/-- The first entity with this id. -/
def Diagram.entity? (d : Diagram) (id : Id) : Option Entity := d.entities.find? (·.id = id)

/-- The first entity with this name. -/
def Diagram.named? (d : Diagram) (name : Text) : Option Entity := d.entities.find? (·.name = name)

/-! ### The symbols of relations -/

namespace Cardinality

def all : List Cardinality := [exactlyOne, zeroOrOne, oneOrMore, zeroOrMore]

/-- The name of the cardinality. -/
def name : Cardinality → Text
  | exactlyOne => "EXACTLY_ONE".toList
  | zeroOrOne => "ZERO_OR_ONE".toList
  | oneOrMore => "ONE_OR_MORE".toList
  | zeroOrMore => "ZERO_OR_MORE".toList

/-- The symbol at the source, left of the line. -/
def sourceSymbol : Cardinality → Text
  | exactlyOne => "||".toList
  | zeroOrOne => "|o".toList
  | oneOrMore => "\x7d|".toList
  | zeroOrMore => "\x7do".toList

/-- The symbol at the target, right of the line. -/
def targetSymbol : Cardinality → Text
  | exactlyOne => "||".toList
  | zeroOrOne => "o|".toList
  | oneOrMore => "|\x7b".toList
  | zeroOrMore => "o\x7b".toList

/-- The cardinality that a symbol stands for, on either side of the line. -/
def ofSymbol? (s : Text) : Option Cardinality :=
  all.find? fun c => s = c.sourceSymbol ∨ s = c.targetSymbol

/-- The cardinality that a symbol stands for; anything else stands for exactly one. -/
def ofSymbol (s : Text) : Cardinality := (ofSymbol? s).getD exactlyOne

end Cardinality

/-- The line of a relation: drawn through if it identifies the entity, dotted if not. -/
def lineSymbol (identifying : Bool) : Text := if identifying then "--".toList else "..".toList

/-- The symbol of a relation: source, line, target. -/
def encodeSymbol (source target : Cardinality) (identifying : Bool) : Text :=
  source.sourceSymbol ++ lineSymbol identifying ++ target.targetSymbol

/-- Reads the symbol of a relation around its first line, a drawn one if there is any.  A text without a line stands
for exactly one on both sides. -/
def decodeSymbol (symbol : Text) : Cardinality × Cardinality × Bool :=
  match Text.find? (lineSymbol true) symbol, Text.find? (lineSymbol false) symbol with
  | some i, _ => (.ofSymbol (symbol.take i), .ofSymbol (symbol.drop (i + 2)), true)
  | none, some i => (.ofSymbol (symbol.take i), .ofSymbol (symbol.drop (i + 2)), false)
  | none, none => (.exactlyOne, .exactlyOne, true)

end DiagramText.Er

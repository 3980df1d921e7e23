import DiagramText.Er.Statement
import DiagramText.Keyed

/-!
# Schemas

A schema is what statements say.  Entities go by name in it: a second mention of an entity is merged into the first, and
its attributes are appended.  The diagram of a schema numbers the entities and puts them on the grid.
-/

namespace DiagramText.Er

/-- Entities by name, each with its attributes, and the relations between them. -/
structure Schema where
  entities : Keyed Text (List Attribute) := []
  relations : List (Relation Text) := []
deriving DecidableEq, Repr

namespace Schema

/-- The names of the entities in order. -/
def names (s : Schema) : List Text := s.entities.keys

/-- Appends attributes to an entity, which comes into being if it is new. -/
def extend (s : Schema) (name : Text) (attributes : List Attribute) : Schema :=
  { s with entities := Keyed.upsert name (fun old => old.getD [] ++ attributes) s.entities }

/-- Adds a relation, with its ends. -/
def relate (s : Schema) (r : Relation Text) : Schema :=
  let s := (s.extend r.source []).extend r.target []
  { s with relations := s.relations ++ [r] }

/-- Adds what a statement says. -/
def add (s : Schema) : Statement → Schema
  | .mention name => s.extend name []
  | .block name entries _ => s.extend name (entries.filterMap Entry.attribute?)
  | .relation r => s.relate r
  | .untargeted _ => s
  | .skipped _ _ => s

/-- What a list of statements says. -/
def ofStatements (sts : List Statement) : Schema := sts.foldl add {}

/-- The diagram of a schema: the entities in order on the grid, the relations by id. -/
def toDiagram (s : Schema) : Diagram where
  entities := s.entities.mapIdx fun i e => ⟨.minted i, e.1, e.2, Grid.entities.position i⟩
  relations := s.relations.map (·.map fun name => .minted (s.names.idxOf name))

end Schema

end DiagramText.Er

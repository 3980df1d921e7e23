import DiagramText.Flowchart.Statement
import DiagramText.Keyed

/-!
# Drafts of flowcharts

Statements are added to a draft, which knows which subgraphs are open.  In a draft nodes go by the identifier of the
text: a second mention is the same node, and a mention with a shape gives the node its label and shape.  A node belongs
to the innermost subgraph that is open where a subgraph first mentions it.
-/

namespace DiagramText.Flowchart

/-- A chart in the making: nodes by identifier, and the places of the open subgraphs, the innermost first. -/
structure Draft where
  nodes : Keyed Text (Shape × Text) := []
  edges : List (Edge Text) := []
  subgraphs : List (Subgraph Text) := []
  inside : List Nat := []
deriving DecidableEq, Repr

namespace Draft

/-- The identifiers of the nodes in order. -/
def names (d : Draft) : List Text := d.nodes.keys

/-- Lists a node in the innermost open subgraph, unless a subgraph lists it already. -/
def enlist (d : Draft) (key : Text) : Draft :=
  match d.inside with
  | [] => d
  | i :: _ =>
    if d.subgraphs.any fun g => g.members.contains key then d
    else { d with subgraphs := d.subgraphs.modify i fun g => { g with members := g.members ++ [key] } }

/-- Adds a node, or gives it the shape and label that stand beside this mention. -/
def mention (d : Draft) (m : Mention) : Draft :=
  let nodes := d.nodes.upsert m.key fun old => m.look.getD (old.getD (.rectangle, m.key))
  enlist { d with nodes } m.key

/-- Adds the links of a chain behind the node `source`, one after the other. -/
def join (d : Draft) (source : Text) : List (Link × Mention) → Draft
  | [] => d
  | (l, m) :: r =>
    let d := d.mention m
    join { d with edges := d.edges ++ [⟨source, m.key, l⟩] } m.key r

/-- Adds what a statement says. -/
def add (d : Draft) : Statement → Draft
  | .chain first links _ => (d.mention first).join first.key links
  | .opening title direction _ =>
    { d with subgraphs := d.subgraphs ++ [⟨title, [], direction⟩], inside := d.subgraphs.length :: d.inside }
  | .closing _ => { d with inside := d.inside.tail }
  | .skipped _ _ _ => d

/-- What a list of statements says. -/
def ofStatements (sts : List Statement) : Draft := sts.foldl add {}

/-- The id of the node with this identifier. -/
def id (d : Draft) (key : Text) : Id := .minted (d.names.idxOf key)

/-- The diagram of a draft: the nodes in order on the grid, edges and members by id. -/
def toDiagram (d : Draft) (direction : Direction) : Diagram where
  direction := direction
  nodes := d.nodes.mapIdx fun i n => ⟨.minted i, n.2.2, n.2.1, direction.grid.position i⟩
  edges := d.edges.map (·.map d.id)
  subgraphs := d.subgraphs.map (·.map d.id)

end Draft

end DiagramText.Flowchart

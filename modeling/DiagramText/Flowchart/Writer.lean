import DiagramText.Flowchart.Link
import DiagramText.Flowchart.Naming
import DiagramText.Flowchart.Shape

/-!
# Writing flowchart text

A diagram is first arranged: every node goes to the block of the first subgraph that lists it, or before all blocks if
none does; every edge goes to the block that holds both its ends, or behind all blocks.  The lines follow the
arrangement.  Of nodes that share an id only the first is written, and an edge with an unknown end is left out.
-/

namespace DiagramText.Flowchart

/-! ### Arrangement -/

/-- The block of a subgraph: its nodes, and the edges between them. -/
structure Block where
  label : Text
  direction : Option Direction
  nodes : List Node
  edges : List (Edge Id)
deriving DecidableEq, Repr

/-- What a written chart holds, in the order of its lines. -/
structure Arrangement where
  direction : Direction
  nodes : List Node
  blocks : List Block
  edges : List (Edge Id)
deriving DecidableEq, Repr

namespace Diagram

/-- The nodes, the first of each id. -/
def distinctNodes (d : Diagram) : List Node := Keyed.firsts Node.id d.nodes

/-- The place of the first subgraph that lists the node, if there is such a node. -/
def home? (d : Diagram) (id : Id) : Option Nat :=
  if (d.node? id).isSome then d.subgraphs.findIdx? (·.members.contains id) else none

/-- The nodes whose home is the subgraph number `i`, in the order in which it lists them. -/
def members (d : Diagram) (i : Nat) (g : Subgraph Id) : List Node :=
  (Keyed.firsts id g.members).filterMap fun id => if d.home? id = some i then d.node? id else none

/-- Both ends of an edge are nodes of the diagram. -/
def resolves (d : Diagram) (e : Edge Id) : Bool := (d.node? e.source).isSome && (d.node? e.target).isSome

/-- Both ends of an edge have their home in the subgraph number `i`. -/
def holds (d : Diagram) (i : Nat) (e : Edge Id) : Bool := d.home? e.source = some i && d.home? e.target = some i

/-- Both ends of an edge have their home in one subgraph. -/
def isInner (d : Diagram) (e : Edge Id) : Bool := (d.home? e.source).any fun i => d.holds i e

def block (d : Diagram) (i : Nat) (g : Subgraph Id) : Block :=
  ⟨g.label, g.direction, d.members i g, d.edges.filter (d.holds i)⟩

def arrange (d : Diagram) : Arrangement where
  direction := d.direction
  nodes := d.distinctNodes.filter fun n => d.home? n.id = none
  blocks := d.subgraphs.mapIdx d.block
  edges := d.edges.filter fun e => d.resolves e && !d.isInner e

end Diagram

/-- The nodes in the order in which they are written. -/
def Arrangement.allNodes (a : Arrangement) : List Node := a.nodes ++ a.blocks.flatMap Block.nodes

/-- The names of the nodes. -/
def Arrangement.naming (a : Arrangement) : Naming :=
  a.allNodes.foldl (fun names n => names.assign n.id n.label) []

/-! ### Lines -/

/-- The line of a node, without its indent. -/
def Node.line (names : Naming) (n : Node) : Text :=
  names.name n.id ++ n.shape.opener ++ formatLabel n.label ++ n.shape.closer

/-- The line of an edge, without its indent. -/
def Edge.line (names : Naming) (e : Edge Id) : Text :=
  names.name e.source ++ ' ' :: e.link.format ++ ' ' :: names.name e.target

/-- A title can do without brackets if it is made of words that are not reserved, with single spaces between them. -/
def isBareTitle (label : Text) : Bool :=
  (label.splitOn ' ').all fun w => Text.isWord w && !reserved.contains w

/-- The title of the subgraph number `i`. -/
def formatTitle (i : Nat) (label : Text) : Text :=
  if isBareTitle label then label
  else "sg_".toList ++ Text.ofNat i ++ '[' :: formatLabel label ++ [']']

/-- The line that sets a direction, without its indent. -/
def directionLine (d : Direction) : Text := Keyword.direction.word ++ ' ' :: d.word

/-- The lines of the block number `i`. -/
def Block.lines (size : Int) (names : Naming) (i : Nat) (b : Block) : List Text :=
  [Text.indent size 1 ++ subgraphWord ++ ' ' :: formatTitle i b.label] ++
    (b.direction.toList.map directionLine ++ b.nodes.map (·.line names) ++ b.edges.map (·.line names)).map
      (Text.indent size 2 ++ ·) ++
    [Text.indent size 1 ++ endWord]

/-- The lines of an arrangement, with `size` blanks for each level of indentation. -/
def Arrangement.lines (size : Int) (a : Arrangement) : List Text :=
  [Keyword.flowchart.word ++ ' ' :: a.direction.word] ++
    a.nodes.map (fun n => Text.indent size 1 ++ n.line a.naming) ++
    (a.blocks.mapIdx (Block.lines size a.naming)).flatten ++
    a.edges.map (fun e => Text.indent size 1 ++ e.line a.naming)

/-- The text of a diagram. -/
def Diagram.write (size : Int) (d : Diagram) : Text := Text.unlines (d.arrange.lines size)

end DiagramText.Flowchart

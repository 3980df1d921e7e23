import DiagramText.Id
import DiagramText.Layout

/-!
# Flowcharts

Nodes have a label and a shape, edges a type and perhaps a label.  A subgraph lists its members.  Edges and subgraphs
refer to nodes by any kind of reference: by id in a diagram, by the written identifier in a text.
-/

namespace DiagramText.Flowchart

/-- The direction in which a chart runs. -/
inductive Direction where
  | topToBottom
  | topDown
  | bottomToTop
  | leftToRight
  | rightToLeft
deriving DecidableEq, Repr

namespace Direction

def all : List Direction := [topToBottom, topDown, bottomToTop, leftToRight, rightToLeft]

/-- The direction as it is written. -/
def word : Direction → Text
  | topToBottom => "TB".toList
  | topDown => "TD".toList
  | bottomToTop => "BT".toList
  | leftToRight => "LR".toList
  | rightToLeft => "RL".toList

def ofWord? (w : Text) : Option Direction := all.find? (·.word = w)

/-- The grid for the nodes of a chart. -/
def grid : Direction → Grid
  | topToBottom | topDown => .vertical
  | _ => .horizontal

end Direction

/-- The shape of a node. -/
inductive Shape where
  | rectangle
  | rounded
  | stadium
  | subroutine
  | cylinder
  | circle
  | doubleCircle
  | asymmetric
  | rhombus
  | hexagon
  | parallelogram
  | parallelogramAlt
  | trapezoid
  | trapezoidAlt
deriving DecidableEq, Repr

/-- The type of an edge. -/
inductive LinkType where
  | arrow
  | line
  | dotted
  | dottedArrow
  | thick
  | thickArrow
  | invisible
deriving DecidableEq, Repr

structure Node where
  id : Id
  label : Text
  shape : Shape := .rectangle
  position : Position := {}
deriving DecidableEq, Repr

/-- What stands between two nodes. -/
structure Link where
  type : LinkType := .arrow
  label : Option Text := none
deriving DecidableEq, Repr

/-- An edge between two nodes, which are referred to by `ι`. -/
structure Edge (ι : Type) where
  source : ι
  target : ι
  link : Link := {}
deriving DecidableEq, Repr

/-- The edge with other references. -/
def Edge.map {ι κ : Type} (f : ι → κ) (e : Edge ι) : Edge κ := ⟨f e.source, f e.target, e.link⟩

/-- A group of nodes, which are referred to by `ι`. -/
structure Subgraph (ι : Type) where
  label : Text
  members : List ι := []
  direction : Option Direction := none
deriving DecidableEq, Repr

/-- The subgraph with other references. -/
def Subgraph.map {ι κ : Type} (f : ι → κ) (g : Subgraph ι) : Subgraph κ :=
  ⟨g.label, g.members.map f, g.direction⟩

structure Diagram where
  direction : Direction := .topDown
  nodes : List Node := []
  edges : List (Edge Id) := []
  subgraphs : List (Subgraph Id) := []
deriving DecidableEq, Repr

/-- The first node with this id. -/
def Diagram.node? (d : Diagram) (id : Id) : Option Node := d.nodes.find? (·.id = id)

/-! ### Reserved words -/

/-- The words that open a chart or set a direction. -/
inductive Keyword where
  | flowchart
  | graph
  | direction
deriving DecidableEq, Repr

def Keyword.word : Keyword → Text
  | flowchart => "flowchart".toList
  | graph => "graph".toList
  | direction => "direction".toList

def Keyword.ofWord? (w : Text) : Option Keyword := [flowchart, graph, direction].find? (·.word = w)

def subgraphWord : Text := "subgraph".toList

def endWord : Text := "end".toList

/-- The words that cannot name a node. -/
def reserved : List Text :=
  [Keyword.flowchart.word, Keyword.graph.word, Keyword.direction.word, subgraphWord, endWord] ++
    Direction.all.map Direction.word

end DiagramText.Flowchart

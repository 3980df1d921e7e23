import DiagramText.Refusal

/-!
# The graph of a diagram

Entities, nodes and participants become nodes of a directed graph, and relations, edges and messages become links.  Two
nodes have at most one link in each direction: a later one replaces the data of an earlier one and keeps its place.
What refers to an unknown id is left out.
-/

namespace DiagramText

/-- What a graph knows of a node. -/
structure GraphNode where
  label : Text
  group : Option Text := none
deriving DecidableEq, Repr

/-- What a graph knows of a link. -/
structure GraphLink where
  kind : Text
  label : Option Text
deriving DecidableEq, Repr

/-- A directed graph whose nodes and links keep the order in which they first came. -/
structure Graph where
  nodes : Keyed Id GraphNode := []
  links : Keyed (Id × Id) GraphLink := []
deriving DecidableEq, Repr

namespace Graph

/-! ### Building -/

def addNode (g : Graph) (id : Id) (node : GraphNode) : Graph :=
  { g with nodes := g.nodes.upsert id fun _ => node }

/-- Adds a link, if both its ends are nodes. -/
def addLink (g : Graph) (source target : Id) (link : GraphLink) : Graph :=
  if source ∈ g.nodes.keys ∧ target ∈ g.nodes.keys then
    { g with links := g.links.upsert (source, target) fun _ => link }
  else g

def ofEr (d : Er.Diagram) : Graph :=
  let nodes := d.entities.foldl (fun g e => g.addNode e.id ⟨e.name, none⟩) {}
  d.relations.foldl (fun g r => g.addLink r.source r.target
    ⟨if r.identifying then "identifying".toList else "non-identifying".toList, r.label⟩) nodes

/-- The label of the first subgraph that lists a node. -/
def group? (d : Flowchart.Diagram) (id : Id) : Option Text :=
  (d.subgraphs.find? (·.members.contains id)).map (·.label)

def ofFlowchart (d : Flowchart.Diagram) : Graph :=
  let nodes := d.nodes.foldl (fun g n => g.addNode n.id ⟨n.label, group? d n.id⟩) {}
  d.edges.foldl (fun g e => g.addLink e.source e.target ⟨e.link.type.name, e.link.label⟩) nodes

def ofSequence (d : Sequence.Diagram) : Graph :=
  let nodes := d.sortedParticipants.foldl (fun g p => g.addNode p.id ⟨p.name, some p.kind.word⟩) {}
  d.sortedMessages.foldl (fun g m => g.addLink m.source m.target ⟨m.type.name, some m.label⟩) nodes

def ofDiagram : Diagram → Graph
  | .er d => ofEr d
  | .flowchart d => ofFlowchart d
  | .sequence d => ofSequence d

/-! ### Asking -/

def nodeCount (g : Graph) : Nat := g.nodes.length

def linkCount (g : Graph) : Nat := g.links.length

/-- The label of a node. -/
def label (g : Graph) (id : Id) : Text := ((g.nodes.get? id).map GraphNode.label).getD []

/-- The number of links that lead to an id. -/
def inDegree (g : Graph) (id : Id) : Nat := g.links.countP (·.1.2 = id)

/-- The number of links that start from an id. -/
def outDegree (g : Graph) (id : Id) : Nat := g.links.countP (·.1.1 = id)

/-- The links, by their sources in node order; those of one source in the order in which they first came. -/
def sortedLinks (g : Graph) : Keyed (Id × Id) GraphLink :=
  g.nodes.keys.flatMap fun id => g.links.filter (·.1.1 = id)

/-- Where the links of a node lead, in order. -/
def successors (g : Graph) (id : Id) : List Id := (g.links.filter (·.1.1 = id)).map (·.1.2)

/-- The labels of the nodes without links. -/
def isolated (g : Graph) : List Text :=
  (g.nodes.filter fun n => g.inDegree n.1 = 0 && g.outDegree n.1 = 0).map (·.2.label)

/-- Each label with the sorted labels of its successors, sorted by label. -/
def adjacency (g : Graph) : List (Text × List Text) :=
  sortBy (fun a b => Text.le a.1 b.1) <|
    g.nodes.map fun n => (n.2.label, sortBy Text.le ((g.successors n.1).map g.label))

/-! ### Topological order -/

/-- All links to `id` start from nodes of `done`. -/
def isReady (g : Graph) (done : List Id) (id : Id) : Bool :=
  g.links.all fun l => l.1.2 ≠ id || done.contains l.1.1

/-- Takes up to `n` nodes from the queue, one after the other, and puts those that become ready at its end. -/
def drain (g : Graph) : (n : Nat) → (queue done : List Id) → List Id
  | n + 1, id :: queue, done =>
    let done := done ++ [id]
    g.drain n (queue ++ (g.successors id).filter (g.isReady done)) done
  | _, _, done => done

/-- The nodes in topological order, as far as it goes: first those that no link leads to, then always the nodes that
the last ones make ready. -/
def order (g : Graph) : List Id := g.drain g.nodeCount (g.nodes.keys.filter (g.isReady [])) []

/-- The graph has no cycle. -/
def isAcyclic (g : Graph) : Bool := g.order.length = g.nodeCount

/-- The labels of the nodes in topological order, if the graph has no cycle. -/
def topologicalOrder? (g : Graph) : Option (List Text) :=
  if g.isAcyclic then some (g.order.map g.label) else none

end Graph

/-- The graph of a value. -/
def Value.graph : Value → Except Refusal Graph
  | diagram d | flawed d _ _ => .ok (Graph.ofDiagram d)
  | other name => .error (.noGraph name)

end DiagramText

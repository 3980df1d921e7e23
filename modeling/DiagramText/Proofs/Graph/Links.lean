import DiagramText.Proofs.Graph.Ties
import DiagramText.Proofs.Keyed
import Mathlib.Algebra.BigOperators.Group.Finset.Basic
import Mathlib.Algebra.GroupWithZero.Nat

/-!
# The graph of a diagram shows what is written

The nodes and the links of a graph come from lists of elements and of ties (`ofDiagram_eq`), and later ones replace the
data of earlier ones.  A tie becomes a link if both its ends are nodes (`addTies_eq`), which is when it has a line.  So
the links are the pairs of elements between which something is written (`mem_links_ofDiagram`), and what is counted or
asked of the graph can be told from the text (`shows_ofDiagram`).
-/

namespace DiagramText

/-- The elements of a diagram, as a graph knows them. -/
def Diagram.elements : Diagram → List (Id × GraphNode)
  | er d => d.entities.map fun e => (e.id, ⟨e.name, none⟩)
  | flowchart d => d.nodes.map fun n => (n.id, ⟨n.label, Graph.group? d n.id⟩)
  | sequence d => d.sortedParticipants.map fun p => (p.id, ⟨p.name, some p.kind.word⟩)

theorem Diagram.map_fst_elements (d : Diagram) : d.elements.map Prod.fst = d.ids := by
  cases d <;> rw [elements, ids, List.map_map] <;> rfl

def Tie.ends (t : Tie) : Id × Id := (t.source, t.target)

namespace Graph

/-! ### Building -/

def addTie (g : Graph) (t : Tie) : Graph := g.addLink t.source t.target t.link

theorem ofDiagram_eq (d : Diagram) :
    ofDiagram d = d.ties.foldl addTie (d.elements.foldl (fun g n => g.addNode n.1 n.2) {}) := by
  cases d with
  | er d => simp only [Diagram.ties, Diagram.elements, List.foldl_map]; rfl
  | flowchart d => simp only [Diagram.ties, Diagram.elements, List.foldl_map]; rfl
  | sequence d => simp only [Diagram.ties, Diagram.elements, List.foldl_map]; rfl

theorem addNodes_eq (ns : List (Id × GraphNode)) (g : Graph) : ns.foldl (fun g n => g.addNode n.1 n.2) g =
    { g with nodes := ns.foldl (fun l n => l.upsert n.1 fun _ => n.2) g.nodes } := by
  induction ns generalizing g with
  | nil => rfl
  | cons n ns ih => rw [List.foldl_cons, List.foldl_cons, ih, addNode]

theorem addTie_eq (g : Graph) (t : Tie) : g.addTie t =
    if t.within g.nodes.keys then { g with links := g.links.upsert t.ends fun _ => t.link } else g := by
  rw [addTie, addLink, Tie.within]
  simp only [Bool.and_eq_true, List.contains_iff_mem]
  rfl

/-- The ties whose ends are nodes become links. -/
theorem addTies_eq (ts : List Tie) (g : Graph) : ts.foldl addTie g =
    { g with
      links := (ts.filter (·.within g.nodes.keys)).foldl (fun l t => l.upsert t.ends fun _ => t.link) g.links } := by
  induction ts generalizing g with
  | nil => rfl
  | cons t ts ih =>
    rw [List.foldl_cons, ih, addTie_eq, List.filter_cons]
    -- a link leaves the nodes as they are, so the ends of later ties are looked up among the same ones
    split
    · rw [List.foldl_cons]
    · rfl

/-- The ties whose ends are both known. -/
private def resolved (d : Diagram) : List Tie := d.ties.filter (·.within d.ids)

variable {d : Diagram}

theorem nodes_ofDiagram (d : Diagram) :
    (ofDiagram d).nodes = d.elements.foldl (fun l n => Keyed.upsert n.1 (fun _ => n.2) l) [] := by
  rw [ofDiagram_eq, addTies_eq, addNodes_eq]

theorem keys_nodes_ofDiagram (d : Diagram) : (ofDiagram d).nodes.keys = Keyed.firsts id d.ids := by
  rw [nodes_ofDiagram, Keyed.keys_foldl_upsert, Keyed.keys_nil, List.nil_append, d.map_fst_elements,
    List.filter_eq_self.2 (by simp)]
  rfl

theorem mem_nodes_ofDiagram {i : Id} : i ∈ (ofDiagram d).nodes.keys ↔ i ∈ d.ids := by
  rw [keys_nodes_ofDiagram, Keyed.mem_firsts_id]

theorem nodup_nodes_ofDiagram (d : Diagram) : (ofDiagram d).nodes.keys.Nodup := by
  rw [keys_nodes_ofDiagram]
  exact Keyed.nodup_firsts d.ids

/-- The ties whose ends are known become links, and later ones replace the data of earlier ones. -/
private theorem links_ofDiagram (d : Diagram) : (ofDiagram d).links =
    (resolved d).foldl (fun l t => Keyed.upsert t.ends (fun _ => t.link) l) [] := by
  have hlinks : (ofDiagram d).links = (d.ties.filter (·.within (ofDiagram d).nodes.keys)).foldl
      (fun l t => Keyed.upsert t.ends (fun _ => t.link) l) [] := by
    rw [ofDiagram_eq, addTies_eq, addNodes_eq]
  have hwithin : (fun t : Tie => t.within (ofDiagram d).nodes.keys) = (·.within d.ids) := by
    funext t
    rw [Bool.eq_iff_iff]
    simp only [Tie.within, Bool.and_eq_true, List.contains_iff_mem, mem_nodes_ofDiagram]
  rw [hlinks, hwithin, resolved]

private theorem keys_links_ofDiagram (d : Diagram) :
    (ofDiagram d).links.keys = Keyed.firsts id ((resolved d).map Tie.ends) := by
  rw [links_ofDiagram, Keyed.keys_foldl_upsert, Keyed.keys_nil, List.nil_append, List.filter_eq_self.2 (by simp)]
  rfl

private theorem mem_keys_links {e : Id × Id} : e ∈ (ofDiagram d).links.keys ↔ e ∈ (resolved d).map Tie.ends := by
  rw [keys_links_ofDiagram, Keyed.mem_firsts_id]

theorem nodup_links_ofDiagram (d : Diagram) : (ofDiagram d).links.keys.Nodup := by
  rw [keys_links_ofDiagram]
  exact Keyed.nodup_firsts _

/-- The links are the pairs of elements between which something is written. -/
theorem mem_links_ofDiagram {size : Int} {e : Id × Id} :
    e ∈ (ofDiagram d).links.keys ↔ e ∈ (d.written size).map Tie.ends := by
  rw [mem_keys_links]
  exact ((d.written_perm size).map Tie.ends).mem_iff.symm

/-- The last written tie between two elements tells what the graph knows of the link. -/
private theorem get?_links (size : Int) (e : Id × Id) : (ofDiagram d).links.get? e =
    ((d.ties.filter fun t => t ∈ d.written size ∧ t.ends = e).getLast?).map Tie.link := by
  -- the lines of a chart are not in the order of its edges, so the order is taken from the ties
  have hties : d.ties.filter (fun t => t ∈ d.written size ∧ t.ends = e) =
      (resolved d).filter fun t => t.ends = e := by
    rw [resolved, List.filter_filter]
    apply List.filter_congr
    intro t ht
    rw [Bool.eq_iff_iff, decide_eq_true_eq, Bool.and_eq_true, decide_eq_true_eq, (d.written_perm size).mem_iff,
      List.mem_filter, and_iff_right ht, and_comm]
  rw [hties, links_ofDiagram, Keyed.get?_foldl_upsert]

/-! ### Counting -/

/-- Each entry of a list is counted at one of the ids if all of them are among the ids. -/
private theorem sum_countP {α : Type} {ids : List Id} (hids : ids.Nodup) (f : α → Id) {l : List α}
    (hl : ∀ a ∈ l, f a ∈ ids) : (ids.map fun id => l.countP (f · = id)).sum = l.length := by
  have hcount : ∀ id, l.countP (f · = id) = (l.map f).count id := by
    intro id
    rw [List.count, List.countP_map]
    rfl
  simp only [hcount]
  rw [← List.sum_toFinset _ hids, ← List.length_map (f := f)]
  have hsum := Multiset.sum_count_eq_card (s := ids.toFinset) (m := ↑(l.map f)) (by simpa using hl)
  simpa only [Multiset.coe_count, Multiset.coe_card] using hsum

private theorem ends_mem_nodes {e : Id × Id} (he : e ∈ (ofDiagram d).links.keys) :
    e.1 ∈ (ofDiagram d).nodes.keys ∧ e.2 ∈ (ofDiagram d).nodes.keys := by
  obtain ⟨t, ht, rfl⟩ := List.mem_map.1 (mem_keys_links.1 he)
  have hwithin := (List.mem_filter.1 ht).2
  rw [Tie.within, Bool.and_eq_true, List.contains_iff_mem, List.contains_iff_mem] at hwithin
  exact ⟨mem_nodes_ofDiagram.2 hwithin.1, mem_nodes_ofDiagram.2 hwithin.2⟩

theorem sum_inDegree (d : Diagram) :
    ((ofDiagram d).nodes.keys.map (ofDiagram d).inDegree).sum = (ofDiagram d).linkCount := by
  have hends : ∀ l ∈ (ofDiagram d).links, l.1.2 ∈ (ofDiagram d).nodes.keys := fun l hl =>
    (ends_mem_nodes (List.mem_map_of_mem (f := Prod.fst) hl)).2
  exact sum_countP (nodup_nodes_ofDiagram d) (fun l : (Id × Id) × GraphLink => l.1.2) hends

theorem sum_outDegree (d : Diagram) :
    ((ofDiagram d).nodes.keys.map (ofDiagram d).outDegree).sum = (ofDiagram d).linkCount := by
  have hends : ∀ l ∈ (ofDiagram d).links, l.1.1 ∈ (ofDiagram d).nodes.keys := fun l hl =>
    (ends_mem_nodes (List.mem_map_of_mem (f := Prod.fst) hl)).1
  exact sum_countP (nodup_nodes_ofDiagram d) (fun l : (Id × Id) × GraphLink => l.1.1) hends

theorem linkCount_ofDiagram (size : Int) (d : Diagram) :
    (ofDiagram d).linkCount = ((d.written size).map Tie.ends).toFinset.card := by
  have hsame : ((d.written size).map Tie.ends).toFinset = (ofDiagram d).links.keys.toFinset := by
    ext e
    rw [List.mem_toFinset, List.mem_toFinset, mem_links_ofDiagram]
  rw [hsame, List.toFinset_card_of_nodup (nodup_links_ofDiagram d), Keyed.keys, List.length_map]
  rfl

/-- A node is isolated if nothing is written that ends at it. -/
private theorem isolated_ofDiagram (size : Int) (d : Diagram) : (ofDiagram d).isolated =
    ((ofDiagram d).nodes.keys.filter fun id => ∀ t ∈ d.written size, t.source ≠ id ∧ t.target ≠ id).map
      (ofDiagram d).label := by
  have hlabel : ∀ n ∈ (ofDiagram d).nodes, n.2.label = (ofDiagram d).label n.1 := by
    intro n hn
    rw [label, Keyed.get?_of_mem (nodup_nodes_ofDiagram d) hn]
    rfl
  have hlinks : ∀ p : Id × Id → Prop, (∀ l ∈ (ofDiagram d).links, p l.1) ↔ ∀ t ∈ d.written size, p t.ends := by
    intro p
    have hmem : ∀ e, e ∈ (ofDiagram d).links.map Prod.fst ↔ e ∈ (d.written size).map Tie.ends := fun _ =>
      mem_links_ofDiagram
    rw [← List.forall_mem_map (f := Prod.fst) (P := p), ← List.forall_mem_map (f := Tie.ends) (P := p)]
    simp only [hmem]
  have hfree : ∀ id, ((ofDiagram d).inDegree id = 0 && (ofDiagram d).outDegree id = 0) =
      decide (∀ t ∈ d.written size, t.source ≠ id ∧ t.target ≠ id) := by
    intro id
    rw [Bool.eq_iff_iff, Bool.and_eq_true, decide_eq_true_eq, decide_eq_true_eq, decide_eq_true_eq, inDegree, outDegree,
      List.countP_eq_zero, List.countP_eq_zero]
    simp only [decide_eq_true_eq]
    rw [hlinks fun e => ¬ e.2 = id, hlinks fun e => ¬ e.1 = id, and_comm]
    exact forall₂_and.symm
  rw [isolated, Keyed.keys, List.filter_map, List.map_map]
  simp only [hfree]
  exact List.map_congr_left fun n hn => hlabel n (List.mem_of_mem_filter hn)

/-! ### Groups -/

/-- A node belongs to the subgraph in whose block it stands. -/
private theorem group_ofFlowchart (c : Flowchart.Diagram) {id : Id} {n : GraphNode}
    (h : (ofDiagram (.flowchart c)).nodes.get? id = some n) :
    n.group = (c.subgraphs.findIdx? (·.members.contains id)).bind fun i => (c.subgraphs[i]?).map (·.label) := by
  have hgroup : n.group = group? c id := by
    rw [nodes_ofDiagram, Keyed.get?_foldl_upsert, Option.map_eq_some_iff] at h
    obtain ⟨e, he, rfl⟩ := h
    obtain ⟨hmem, hid⟩ := List.mem_filter.1 (List.mem_of_getLast? he)
    obtain ⟨m, -, rfl⟩ := List.mem_map.1 hmem
    exact congrArg (group? c) (of_decide_eq_true hid)
  rw [hgroup, group?, List.find?_eq_bind_findIdx?_getElem?, Option.map_bind]
  rfl

/-- The graph shows what the text of a diagram says.  Its links are the pairs between which a tie has a line, with the
data of the last such tie of the diagram, and all that is counted is counted by these pairs.  In a flowchart the group
of a node is the subgraph in whose block the line of the node stands. -/
structure Shows (g : Graph) (d : Diagram) (size : Int) : Prop where
  nodes : g.nodes.keys = Keyed.firsts id d.ids
  pairs : ∀ u v, (u, v) ∈ g.links.keys ↔ ∃ t ∈ d.written size, t.ends = (u, v)
  last : ∀ u v, g.links.get? (u, v) =
    ((d.ties.filter fun t => t ∈ d.written size ∧ t.ends = (u, v)).getLast?).map Tie.link
  count : g.linkCount = ((d.written size).map Tie.ends).toFinset.card
  inDegrees : (g.nodes.keys.map g.inDegree).sum = g.linkCount
  outDegrees : (g.nodes.keys.map g.outDegree).sum = g.linkCount
  isolated : g.isolated =
    (g.nodes.keys.filter fun id => ∀ t ∈ d.written size, t.source ≠ id ∧ t.target ≠ id).map g.label
  groups : ∀ c, d = .flowchart c → ∀ id n, g.nodes.get? id = some n → ∃ b node,
    (Flowchart.located Flowchart.Line.node? (Flowchart.inBlocks none c.emission)).filter (fun l => l.2.id = id) =
      [(b, node)] ∧ n.group = b.bind fun i => (c.subgraphs[i]?).map (·.label)

/-- The graph of a diagram shows what its text says. -/
theorem shows_ofDiagram (size : Int) (d : Diagram) :
    Text.unlines ((d.marked size).map Prod.snd) = d.write size ∧ (ofDiagram d).Shows d size := by
  refine ⟨d.unlines_marked size, ?_⟩
  constructor
  case nodes => exact keys_nodes_ofDiagram d
  case pairs => exact fun u v => mem_links_ofDiagram.trans List.mem_map
  case last => exact fun u v => get?_links size (u, v)
  case count => exact linkCount_ofDiagram size d
  case inDegrees => exact sum_inDegree d
  case outDegrees => exact sum_outDegree d
  case isolated => exact isolated_ofDiagram size d
  case groups =>
    rintro c rfl id n hn
    have hid : id ∈ c.nodes.map Flowchart.Node.id :=
      mem_nodes_ofDiagram.1 (Keyed.mem_keys_iff.2 ⟨n, hn⟩)
    obtain ⟨node, hnode⟩ := Option.isSome_iff_exists.1 (Flowchart.Diagram.node?_isSome.2 hid)
    refine ⟨_, node, ?_, group_ofFlowchart c hn⟩
    rw [c.filter_nodeLines, hnode]
    rfl

end Graph

end DiagramText

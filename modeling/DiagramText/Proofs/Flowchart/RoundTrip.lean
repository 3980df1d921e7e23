import DiagramText.Proofs.Flowchart.Canonical

/-!
# Reading back what flowcharts are written as

The text of a diagram is read back as its canonical form, with the labels of the nodes as they are read between their
brackets (`read_write_reread`).  A label without quotes is read back as it is, so a diagram of such labels is read back
as its canonical form (`read_write_canonical`).  Ids become numbers, each id its own.
-/

namespace DiagramText.Flowchart

/-! ### The diagram of a chart -/

/-- What a chart says, by id. -/
def Arrangement.diagram (a : Arrangement) : Diagram where
  direction := a.direction
  nodes := a.allNodes.map Node.reread
  edges := a.allEdges.map Edge.normal
  subgraphs := a.blocks.map fun b => ⟨b.label, b.nodes.map Node.id, b.direction⟩

theorem diagram_arrange (d : Diagram) : d.arrange.diagram = d.reread.canonical := by
  rw [Diagram.canonical_reread, Diagram.canonical_nodes, Diagram.canonical_edges, Diagram.canonical_subgraphs]
  rfl

/-- A function that keeps different ids of a diagram different. -/
def Diagram.Separates (d : Diagram) (f : Id → Id) : Prop :=
  ∀ i ∈ d.nodes.map Node.id, ∀ j ∈ d.nodes.map Node.id, f i = f j → i = j

namespace Arrangement

variable {a : Arrangement}

theorem name_mem_draft {i : Id} (hi : i ∈ a.allNodes.map Node.id) : a.naming.name i ∈ a.draft.names := by
  obtain ⟨n, hn, rfl⟩ := List.mem_map.1 hi
  rw [names_draft]
  exact List.mem_map_of_mem (f := (a.naming.name ·.id)) hn

/-- Nodes are numbered in the order of the chart. -/
private theorem id_draft (h : a.Sound) {i : Nat} (hi : i < a.allNodes.length) :
    a.draft.id (a.naming.name a.allNodes[i].id) = .minted i := by
  have hlt : i < a.draft.names.length := by
    rw [names_draft]
    simpa using hi
  have hget : a.draft.names[i] = a.naming.name a.allNodes[i].id := by simp only [names_draft, List.getElem_map]
  have hnodup : a.draft.names.Nodup := by
    rw [names_draft]
    exact h.nodup_names
  rw [Draft.id, ← hget, hnodup.idxOf_getElem]

private theorem nodes_toDiagram_draft (h : a.Sound) : (a.draft.toDiagram a.direction).nodes =
    (a.diagram.rename fun i => a.draft.id (a.naming.name i)).placed.nodes := by
  apply List.ext_getElem
  · simp [Draft.toDiagram, draft, Diagram.placed, Diagram.rename, diagram]
  · intro i hi hi'
    have hlt : i < a.allNodes.length := by
      simpa [Draft.toDiagram, draft] using hi
    have hdraft : (a.draft.toDiagram a.direction).nodes[i] = ⟨.minted i, a.allNodes[i].reread.label,
        a.allNodes[i].reread.shape, a.direction.grid.position i⟩ := by
      simp [Draft.toDiagram, draft, Node.entry]
    have hchart : (a.diagram.rename fun i => a.draft.id (a.naming.name i)).placed.nodes[i] =
        ⟨a.draft.id (a.naming.name a.allNodes[i].id), a.allNodes[i].reread.label, a.allNodes[i].reread.shape,
          a.direction.grid.position i⟩ := by
      simp only [Diagram.placed, Diagram.rename, diagram, List.getElem_mapIdx, List.getElem_map]
      rfl
    rw [hdraft, hchart, id_draft h hlt]

private theorem edges_draft (a : Arrangement) (g : Text → Id) : (a.allEdges.map (·.named a.naming)).map (·.map g) =
    (a.allEdges.map Edge.normal).map (·.map fun i => g (a.naming.name i)) := by
  rw [List.map_map, List.map_map]
  rfl

private theorem subgraphs_draft (a : Arrangement) (g : Text → Id) :
    (a.blocks.map (Block.subgraph a.naming)).map (·.map g) =
      a.diagram.subgraphs.map (·.map fun i => g (a.naming.name i)) := by
  rw [diagram, List.map_map, List.map_map]
  apply List.map_congr_left
  intro b _
  simp [Block.subgraph, Subgraph.map]

end Arrangement

/-- The draft of a chart makes the diagram of the chart, with numbers for ids. -/
theorem toDiagram_draft {a : Arrangement} (h : a.Sound) :
    (∀ i ∈ a.allNodes.map Node.id, ∀ j ∈ a.allNodes.map Node.id,
      a.draft.id (a.naming.name i) = a.draft.id (a.naming.name j) → i = j) ∧
    a.draft.toDiagram a.direction = (a.diagram.rename fun i => a.draft.id (a.naming.name i)).placed := by
  constructor
  · intro i hi j hj hij
    exact Arrangement.name_inj hi hj
      (Draft.id_inj (Arrangement.name_mem_draft hi) (Arrangement.name_mem_draft hj) hij)
  · exact Diagram.ext rfl (Arrangement.nodes_toDiagram_draft h) (Arrangement.edges_draft a a.draft.id)
      (Arrangement.subgraphs_draft a a.draft.id)

/-! ### Reading back -/

/-- A diagram whose titles are read back is read back as its canonical form, with labels as they are read again. -/
theorem read_write_reread {d : Diagram} (hnodes : ∀ n ∈ d.nodes, Framed n.shape n.label)
    (htitles : ∀ g ∈ d.subgraphs, TitleKept g.label) (hedges : ∀ e ∈ d.edges, e.link.Writable) (stack : Stack)
    (size : Int) :
    ∃ f, d.Separates f ∧ (read stack (d.write size)).outcome = .ok (d.reread.canonical.rename f).placed := by
  have hsound := Diagram.sound_arrange d
  have hblock : ∀ b ∈ d.arrange.blocks, TitleKept b.label := by
    intro b hb
    rw [Diagram.blocks_arrange] at hb
    obtain ⟨i, hi, rfl⟩ := List.mem_mapIdx.1 hb
    exact htitles _ (List.getElem_mem hi)
  have hwritable : d.arrange.Writable :=
    ⟨fun n hn => hnodes n (Diagram.mem_nodes_of_arrange hn), fun b hb => (hblock b hb).framed.line,
      fun e he => hedges e (Diagram.mem_edges_of_arrange he)⟩
  obtain ⟨hsep, hdiagram⟩ := toDiagram_draft hsound
  refine ⟨fun i => d.arrange.draft.id (d.arrange.naming.name i), ?_, ?_⟩
  · intro i hi j hj hij
    exact hsep i (Diagram.mem_ids_arrange.2 hi) j (Diagram.mem_ids_arrange.2 hj) hij
  · rw [read_eq_ok_iff, Diagram.write, kinds_lines hsound hwritable, document_kinds hblock]
    refine ⟨Nat.le_trans (deepest_statements _) stack.subgraphs_pos, errors_statements _, ?_⟩
    rw [ofStatements_statements hsound, hdiagram, diagram_arrange]

/-- The diagrams that a text can hold: labels and titles can be quoted, and the labels of edges can be written as they
are. -/
structure Diagram.Writable (d : Diagram) : Prop where
  nodes : ∀ n ∈ d.nodes, Text.isQuotable n.label
  titles : ∀ g ∈ d.subgraphs, Text.isQuotable g.label
  edges : ∀ e ∈ d.edges, e.link.Writable

theorem Diagram.Writable.reread {d : Diagram} (h : d.Writable) : d.reread = d := by
  have hnodes : d.nodes.map Node.reread = d.nodes := by
    refine (List.map_congr_left ?_).trans (List.map_id _)
    intro n hn
    obtain ⟨hquote, hbreak⟩ := Text.isQuotable_iff.1 (h.nodes n hn)
    rw [Node.reread, Shape.reread_of_bare n.shape hquote hbreak]
    rfl
  rw [Diagram.reread, hnodes]

/-- The text of a diagram, indented as it may be, is read back as the canonical form of the diagram, up to the names of
its ids. -/
theorem read_write_canonical {d : Diagram} (h : d.Writable) (stack : Stack) (size : Int) :
    ∃ f, d.Separates f ∧ (read stack (d.write size)).outcome = .ok (d.canonical.rename f).placed := by
  have hnodes : ∀ n ∈ d.nodes, Framed n.shape n.label := by
    intro n hn
    obtain ⟨hquote, hbreak⟩ := Text.isQuotable_iff.1 (h.nodes n hn)
    exact framed_of_bare n.shape hquote hbreak
  have htitles : ∀ g ∈ d.subgraphs, TitleKept g.label := by
    intro g hg
    obtain ⟨hquote, hbreak⟩ := Text.isQuotable_iff.1 (h.titles g hg)
    exact titleKept_of_bare hquote hbreak
  have hread := read_write_reread hnodes htitles h.edges stack size
  rwa [h.reread] at hread

/-- A chart with a node and an edge that are listed twice, a shared member, a node that is missing, and labels that take
some care. -/
def deliveries : Diagram where
  nodes := [
    { id := .minted 0, label := "order [new]".toList },
    { id := .minted 1, label := "end".toList, shape := .rhombus },
    { id := .minted 0, label := "again".toList },
    { id := .minted 2, label := [], shape := .trapezoid }]
  edges := [
    { source := .minted 0, target := .minted 1, link := { type := .dotted, label := some "a|b".toList } },
    { source := .minted 2, target := .minted 0, link := { type := .thickArrow, label := some [] } },
    { source := .minted 2, target := .minted 9 }]
  subgraphs := [
    { label := "on the way".toList, members := [.minted 2, .minted 9, .minted 1, .minted 2] },
    { label := "done (all)".toList, members := [.minted 1], direction := some .leftToRight }]

theorem read_write_deliveries : deliveries.Writable ∧ ∃ f, deliveries.Separates f ∧
    (read {} (deliveries.write 4)).outcome = .ok (deliveries.canonical.rename f).placed := by
  have h : deliveries.Writable := ⟨by decide, by decide, by decide⟩
  exact ⟨h, read_write_canonical h {} 4⟩

end DiagramText.Flowchart

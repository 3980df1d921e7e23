import DiagramText.Proofs.Flowchart.Statements

/-!
# The draft of a chart

Statement by statement, the draft of a chart is built up from the nodes, edges and subgraphs of its arrangement
(`ofStatements_statements`): a node that is new comes last and is listed in the open subgraph, and an edge between nodes
that have their place adds nothing else.
-/

namespace DiagramText.Flowchart

namespace Draft

variable {d : Draft} {w : Text}

/-- A node that is known, and that would not be listed anew. -/
structure Settled (d : Draft) (key : Text) : Prop where
  known : key ∈ d.names
  listed : d.inside = [] ∨ ∃ g ∈ d.subgraphs, key ∈ g.members

/-! ### Ids -/

/-- Different nodes get different ids. -/
theorem id_inj {k j : Text} (hk : k ∈ d.names) (hj : j ∈ d.names) (h : d.id k = d.id j) : k = j := by
  have hidx : d.names.idxOf k = d.names.idxOf j := by
    simpa [Draft.id] using h
  rw [← List.getElem_idxOf (List.idxOf_lt_length_of_mem hk), ← List.getElem_idxOf (List.idxOf_lt_length_of_mem hj)]
  simp only [hidx]

theorem map_id_toDiagram (h : d.names.Nodup) (direction : Direction) :
    (d.toDiagram direction).nodes.map Node.id = d.names.map d.id := by
  apply List.ext_getElem
  · simp [toDiagram, names, Keyed.keys]
  · intro i hi hi'
    have hlt : i < d.names.length := by
      rwa [List.length_map] at hi'
    rw [List.getElem_map, List.getElem_map, id, h.idxOf_getElem i hlt]
    simp only [toDiagram, List.getElem_mapIdx]

/-! ### One statement -/

private theorem enlist_outside (h : d.inside = []) (key : Text) : d.enlist key = d := by
  rw [enlist, h]

private theorem enlist_listed {key : Text} (h : ∃ g ∈ d.subgraphs, key ∈ g.members) : d.enlist key = d := by
  unfold enlist
  split
  · rfl
  · rw [if_pos]
    obtain ⟨g, hg, hkey⟩ := h
    exact List.any_eq_true.2 ⟨g, hg, by simpa using hkey⟩

private theorem modify_last {α : Type} (l : List α) (a : α) (f : α → α) :
    (l ++ [a]).modify l.length f = l ++ [f a] := by
  induction l with
  | nil => rfl
  | cons b l ih => rw [List.cons_append, List.length_cons, List.modify_succ_cons, ih, List.cons_append]

/-- The innermost open subgraph is the last one. -/
private theorem enlist_last {gs : List (Subgraph Text)} {g : Subgraph Text} {inside : List Nat}
    (hsub : d.subgraphs = gs ++ [g]) (hin : d.inside = gs.length :: inside) {key : Text}
    (hnew : ∀ g ∈ d.subgraphs, key ∉ g.members) :
    d.enlist key = { d with subgraphs := gs ++ [{ g with members := g.members ++ [key] }] } := by
  have hany : d.subgraphs.any (fun g => g.members.contains key) = false := by
    rw [List.any_eq_false]
    intro g hg
    simpa using hnew g hg
  unfold enlist
  rw [hin]
  dsimp only
  rw [hany, if_neg (by decide), hsub, modify_last]

theorem mention_settled (h : d.Settled w) : d.mention ⟨w, none⟩ = d := by
  obtain ⟨look, hlook⟩ := Keyed.mem_keys_iff.1 h.known
  have hnodes :
      d.nodes.upsert w (fun old => (none : Option (Shape × Text)).getD (old.getD (.rectangle, w))) = d.nodes :=
    Keyed.upsert_of_get? hlook rfl
  have hsame : d.mention ⟨w, none⟩ = d.enlist w := by
    unfold mention
    dsimp only
    rw [hnodes]
  rw [hsame]
  rcases h.listed with hin | hlisted
  · exact enlist_outside hin w
  · exact enlist_listed hlisted

/-- The draft with a node at the end. -/
def addNode (d : Draft) (w : Text) (look : Shape × Text) : Draft := { d with nodes := d.nodes ++ [(w, look)] }

theorem mention_new (h : w ∉ d.names) (look : Shape × Text) :
    d.mention ⟨w, some look⟩ = (d.addNode w look).enlist w := by
  unfold mention addNode
  dsimp only
  rw [Keyed.upsert_of_not_mem h]
  rfl

/-- An edge between nodes that have their place. -/
theorem add_edge {u v : Text} (hu : d.Settled u) (hv : d.Settled v) (l : Link) :
    d.add (.chain ⟨u, none⟩ [(l, ⟨v, none⟩)] none) = { d with edges := d.edges ++ [⟨u, v, l⟩] } := by
  show join (d.mention ⟨u, none⟩) u [(l, ⟨v, none⟩)] = _
  rw [mention_settled hu]
  show join { d.mention ⟨v, none⟩ with edges := (d.mention ⟨v, none⟩).edges ++ [⟨u, v, l⟩] } v [] = _
  rw [mention_settled hv]
  rfl

/-! ### Runs of statements -/

/-- Nodes before all blocks are added one after the other. -/
private theorem foldl_nodes_outside (ns : Keyed Text (Shape × Text)) (hin : d.inside = [])
    (hnodup : (d.names ++ ns.keys).Nodup) :
    (ns.map fun n => Statement.chain ⟨n.1, some n.2⟩ [] none).foldl add d = { d with nodes := d.nodes ++ ns } := by
  induction ns generalizing d with
  | nil => simp
  | cons n ns ih =>
    rw [Keyed.keys_cons] at hnodup
    have hnew : n.1 ∉ d.names := fun h => (List.nodup_append.1 hnodup).2.2 _ h _ List.mem_cons_self rfl
    have hadd : d.add (.chain ⟨n.1, some n.2⟩ [] none) = d.addNode n.1 n.2 := by
      show d.mention ⟨n.1, some n.2⟩ = _
      rw [mention_new hnew]
      exact enlist_outside (d := d.addNode n.1 n.2) hin n.1
    rw [List.map_cons, List.foldl_cons, hadd, ih]
    · simp [addNode]
    · exact hin
    · rw [names, addNode, Keyed.keys, List.map_append, List.append_assoc]
      exact hnodup

/-- Nodes inside a block are listed in its subgraph, which is the last one. -/
private theorem foldl_nodes_inside (ns : Keyed Text (Shape × Text)) {gs : List (Subgraph Text)} {g : Subgraph Text}
    {inside : List Nat} (hsub : d.subgraphs = gs ++ [g]) (hin : d.inside = gs.length :: inside)
    (hmem : ∀ g ∈ d.subgraphs, ∀ m ∈ g.members, m ∈ d.names) (hnodup : (d.names ++ ns.keys).Nodup) :
    (ns.map fun n => Statement.chain ⟨n.1, some n.2⟩ [] none).foldl add d =
      { d with nodes := d.nodes ++ ns, subgraphs := gs ++ [{ g with members := g.members ++ ns.keys }] } := by
  induction ns generalizing d g with
  | nil => simp [← hsub]
  | cons n ns ih =>
    rw [Keyed.keys_cons] at hnodup
    have hnew : n.1 ∉ d.names := fun h => (List.nodup_append.1 hnodup).2.2 _ h _ List.mem_cons_self rfl
    have hadd : d.add (.chain ⟨n.1, some n.2⟩ [] none) =
        ⟨d.nodes ++ [n], d.edges, gs ++ [{ g with members := g.members ++ [n.1] }], d.inside⟩ := by
      show d.mention ⟨n.1, some n.2⟩ = _
      rw [mention_new hnew, enlist_last (d := d.addNode n.1 n.2) hsub hin]
      · rfl
      · exact fun g hg h => hnew (hmem g hg _ h)
    have hnames : (Draft.mk (d.nodes ++ [n]) d.edges (gs ++ [{ g with members := g.members ++ [n.1] }])
        d.inside).names = d.names ++ [n.1] := by
      simp [names, Keyed.keys]
    rw [List.map_cons, List.foldl_cons, hadd]
    refine (ih (d := ⟨d.nodes ++ [n], d.edges, gs ++ [{ g with members := g.members ++ [n.1] }], d.inside⟩)
      (g := { g with members := g.members ++ [n.1] }) rfl hin ?_ ?_).trans ?_
    · intro g' hg' m hm
      rw [hnames, List.mem_append, List.mem_singleton]
      rcases List.mem_append.1 hg' with hg' | hg'
      · exact Or.inl (hmem g' (by rw [hsub]; exact List.mem_append_left _ hg') m hm)
      · rw [List.mem_singleton.1 hg'] at hm
        rcases List.mem_append.1 hm with hm | hm
        · exact Or.inl (hmem g (by rw [hsub]; simp) m hm)
        · exact Or.inr (List.mem_singleton.1 hm)
    · rw [hnames, List.append_assoc]
      exact hnodup
    · simp

private theorem foldl_edges (es : List (Edge Text)) (h : ∀ e ∈ es, d.Settled e.source ∧ d.Settled e.target) :
    (es.map fun e => Statement.chain ⟨e.source, none⟩ [(e.link, ⟨e.target, none⟩)] none).foldl add d =
      { d with edges := d.edges ++ es } := by
  induction es generalizing d with
  | nil => simp
  | cons e es ih =>
    obtain ⟨hs, ht⟩ := h e List.mem_cons_self
    rw [List.map_cons, List.foldl_cons, add_edge hs ht, ih]
    · simp
    · intro e' he'
      obtain ⟨hs, ht⟩ := h e' (List.mem_cons_of_mem _ he')
      exact ⟨⟨hs.known, hs.listed⟩, ⟨ht.known, ht.listed⟩⟩

/-! ### Blocks -/

/-- The draft with more nodes, edges and subgraphs, and no subgraph open. -/
def extend (d : Draft) (nodes : Keyed Text (Shape × Text)) (edges : List (Edge Text))
    (subgraphs : List (Subgraph Text)) : Draft :=
  ⟨d.nodes ++ nodes, d.edges ++ edges, d.subgraphs ++ subgraphs, []⟩

end Draft

/-- The node as an entry of a draft. -/
def Node.entry (names : Naming) (n : Node) : Text × Shape × Text :=
  (names.name n.id, n.reread.shape, n.reread.label)

/-- The edge as a draft holds it. -/
def Edge.named (names : Naming) (e : Edge Id) : Edge Text :=
  ⟨names.name e.source, names.name e.target, e.link.normal⟩

/-- The block as a subgraph of a draft. -/
def Block.subgraph (names : Naming) (b : Block) : Subgraph Text :=
  ⟨b.label, b.nodes.map (names.name ·.id), b.direction⟩

theorem keys_entries (names : Naming) (ns : List Node) :
    Keyed.keys (ns.map (·.entry names)) = ns.map (names.name ·.id) := by
  rw [Keyed.keys, List.map_map]
  rfl

namespace Draft

variable {d : Draft}

private theorem foldl_block {names : Naming} {b : Block} (hin : d.inside = [])
    (hmem : ∀ g ∈ d.subgraphs, ∀ m ∈ g.members, m ∈ d.names)
    (hnodup : (d.names ++ b.nodes.map (names.name ·.id)).Nodup)
    (hends : ∀ e ∈ b.edges, e.source ∈ b.nodes.map Node.id ∧ e.target ∈ b.nodes.map Node.id) :
    (b.statements names).foldl add d =
      d.extend (b.nodes.map (·.entry names)) (b.edges.map (·.named names)) [b.subgraph names] := by
  rw [Block.statements, List.foldl_append, List.foldl_append, List.foldl_append]
  have hopen : ([Statement.opening b.label b.direction {}].foldl add d) =
      ⟨d.nodes, d.edges, d.subgraphs ++ [⟨b.label, [], b.direction⟩], [d.subgraphs.length]⟩ := by
    rw [List.foldl_cons, List.foldl_nil, add, hin]
  have hnodes : (b.nodes.map (·.statement names)).foldl add
        ⟨d.nodes, d.edges, d.subgraphs ++ [⟨b.label, [], b.direction⟩], [d.subgraphs.length]⟩ =
      ⟨d.nodes ++ b.nodes.map (·.entry names), d.edges, d.subgraphs ++ [b.subgraph names], [d.subgraphs.length]⟩ := by
    have hrun := foldl_nodes_inside (b.nodes.map (·.entry names))
      (d := ⟨d.nodes, d.edges, d.subgraphs ++ [⟨b.label, [], b.direction⟩], [d.subgraphs.length]⟩) rfl rfl
    rw [List.map_map, keys_entries] at hrun
    refine hrun ?_ hnodup
    intro g hg m hm
    rcases List.mem_append.1 hg with hg | hg
    · exact hmem g hg m hm
    · rw [List.mem_singleton.1 hg] at hm
      cases hm
  have hsettled : ∀ i ∈ b.nodes.map Node.id, Settled ⟨d.nodes ++ b.nodes.map (·.entry names), d.edges,
      d.subgraphs ++ [b.subgraph names], [d.subgraphs.length]⟩ (names.name i) := by
    intro i hi
    obtain ⟨n, hn, rfl⟩ := List.mem_map.1 hi
    have hname : names.name n.id ∈ b.nodes.map (names.name ·.id) := List.mem_map_of_mem (f := (names.name ·.id)) hn
    refine ⟨?_, Or.inr ⟨b.subgraph names, by simp, hname⟩⟩
    rw [Draft.names, Keyed.keys, List.map_append, List.mem_append]
    right
    rw [← Keyed.keys, keys_entries]
    exact hname
  have hedges : (b.edges.map (·.statement names)).foldl add
        ⟨d.nodes ++ b.nodes.map (·.entry names), d.edges, d.subgraphs ++ [b.subgraph names], [d.subgraphs.length]⟩ =
      ⟨d.nodes ++ b.nodes.map (·.entry names), d.edges ++ b.edges.map (·.named names),
        d.subgraphs ++ [b.subgraph names], [d.subgraphs.length]⟩ := by
    have hrun := foldl_edges (b.edges.map (·.named names)) (d := ⟨d.nodes ++ b.nodes.map (·.entry names), d.edges,
      d.subgraphs ++ [b.subgraph names], [d.subgraphs.length]⟩)
    rw [List.map_map] at hrun
    apply hrun
    intro e he
    obtain ⟨e', he', rfl⟩ := List.mem_map.1 he
    obtain ⟨hs, ht⟩ := hends e' he'
    exact ⟨hsettled _ hs, hsettled _ ht⟩
  rw [hopen, hnodes, hedges]
  rfl

private theorem foldl_blocks {names : Naming} (bs : List Block) (hin : d.inside = [])
    (hmem : ∀ g ∈ d.subgraphs, ∀ m ∈ g.members, m ∈ d.names)
    (hnodup : (d.names ++ (bs.flatMap Block.nodes).map (names.name ·.id)).Nodup)
    (hends : ∀ b ∈ bs, ∀ e ∈ b.edges, e.source ∈ b.nodes.map Node.id ∧ e.target ∈ b.nodes.map Node.id) :
    (bs.flatMap (Block.statements names)).foldl add d =
      d.extend ((bs.flatMap Block.nodes).map (·.entry names)) ((bs.flatMap Block.edges).map (·.named names))
        (bs.map (Block.subgraph names)) := by
  induction bs generalizing d with
  | nil =>
    obtain ⟨nodes, edges, subgraphs, inside⟩ := d
    cases hin
    simp [extend]
  | cons b bs ih =>
    rw [List.flatMap_cons, List.map_append, ← List.append_assoc] at hnodup
    have hnames : (d.extend (b.nodes.map (·.entry names)) (b.edges.map (·.named names)) [b.subgraph names]).names =
        d.names ++ b.nodes.map (names.name ·.id) := by
      rw [← keys_entries]
      exact List.map_append
    rw [List.flatMap_cons, List.foldl_append,
      foldl_block hin hmem (List.nodup_append.1 hnodup).1 (hends b List.mem_cons_self), ih]
    · simp [extend]
    · rfl
    · intro g hg m hm
      rw [hnames, List.mem_append]
      rcases List.mem_append.1 hg with hg | hg
      · exact Or.inl (hmem g hg m hm)
      · rw [List.mem_singleton.1 hg] at hm
        exact Or.inr hm
    · rw [hnames]
      exact hnodup
    · exact fun b' hb' => hends b' (List.mem_cons_of_mem b hb')

end Draft

/-! ### The draft of an arrangement -/

/-- The draft that holds what a chart says. -/
def Arrangement.draft (a : Arrangement) : Draft where
  nodes := a.allNodes.map (·.entry a.naming)
  edges := a.allEdges.map (·.named a.naming)
  subgraphs := a.blocks.map (Block.subgraph a.naming)

theorem Arrangement.names_draft (a : Arrangement) : a.draft.names = a.allNodes.map (a.naming.name ·.id) :=
  keys_entries a.naming a.allNodes

theorem Arrangement.Sound.nodup_names {a : Arrangement} (h : a.Sound) :
    (a.allNodes.map (a.naming.name ·.id)).Nodup := by
  have hmap : a.allNodes.map (a.naming.name ·.id) = (a.allNodes.map Node.id).map a.naming.name := by
    rw [List.map_map]
    rfl
  rw [hmap]
  exact List.Nodup.map_on (fun i hi j hj => Arrangement.name_inj hi hj) h.ids

/-- The statements of a chart make its draft. -/
theorem ofStatements_statements {a : Arrangement} (h : a.Sound) : Draft.ofStatements a.statements = a.draft := by
  have hnodup := h.nodup_names
  rw [Arrangement.allNodes, List.map_append] at hnodup
  have hnodes : (a.nodes.map (·.statement a.naming)).foldl Draft.add {} =
      ⟨a.nodes.map (·.entry a.naming), [], [], []⟩ := by
    have hrun := Draft.foldl_nodes_outside (a.nodes.map (·.entry a.naming)) (d := {}) rfl
    rw [List.map_map, keys_entries] at hrun
    exact hrun (List.nodup_append.1 hnodup).1
  have hblocks := Draft.foldl_blocks (d := ⟨a.nodes.map (·.entry a.naming), [], [], []⟩) a.blocks rfl
    (by simp) (by rw [Draft.names, keys_entries]; exact hnodup) h.inner
  have hedges := Draft.foldl_edges (a.edges.map (·.named a.naming)) (d := ⟨a.allNodes.map (·.entry a.naming),
    (a.blocks.flatMap Block.edges).map (·.named a.naming), a.blocks.map (Block.subgraph a.naming), []⟩)
  rw [List.map_map] at hedges
  rw [Draft.ofStatements, Arrangement.statements, List.foldl_append, List.foldl_append, hnodes, hblocks]
  simp only [Draft.extend, List.nil_append, ← List.map_append]
  refine (hedges ?_).trans ?_
  · have hsettled : ∀ i ∈ a.allNodes.map Node.id, Draft.Settled ⟨a.allNodes.map (·.entry a.naming),
        (a.blocks.flatMap Block.edges).map (·.named a.naming), a.blocks.map (Block.subgraph a.naming), []⟩
        (a.naming.name i) := by
      intro i hi
      obtain ⟨n, hn, rfl⟩ := List.mem_map.1 hi
      refine ⟨?_, Or.inl rfl⟩
      rw [Draft.names, keys_entries]
      exact List.mem_map_of_mem (f := (a.naming.name ·.id)) hn
    intro e he
    obtain ⟨e', he', rfl⟩ := List.mem_map.1 he
    obtain ⟨hs, ht⟩ := h.outer e' he'
    exact ⟨hsettled _ hs, hsettled _ ht⟩
  · rw [Arrangement.draft, Arrangement.allEdges, List.map_append]

end DiagramText.Flowchart

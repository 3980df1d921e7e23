import DiagramText.Proofs.Flowchart.Drafting

/-!
# The canonical form of a chart

A text keeps of a diagram its canonical form (`Diagram.canonical`): the first node of each id, each node in the first
subgraph that lists it, and the edges with known ends.  The canonical form says without the writer what the writer
arranges (`canonical_nodes`, `canonical_edges`, `canonical_subgraphs`).
-/

namespace DiagramText.Flowchart

/-- The edge as a text keeps it: an empty label is none. -/
def Edge.normal {ι : Type} (e : Edge ι) : Edge ι := { e with link := e.link.normal }

/-- Both ends of the edge are among the ids. -/
def Edge.within (e : Edge Id) (ids : List Id) : Bool := ids.contains e.source && ids.contains e.target

namespace Diagram

/-- The known nodes that the subgraph number `i` lists and no earlier one does, each once. -/
def claims (d : Diagram) (i : Nat) (g : Subgraph Id) : List Id :=
  (Keyed.firsts (fun id => id) g.members).filter fun id =>
    (d.node? id).isSome && !(d.subgraphs.take i).any (·.members.contains id)

/-- The nodes of each subgraph. -/
def claimed (d : Diagram) : List (List Id) := d.subgraphs.mapIdx d.claims

/-- The diagram as a text keeps it: the first node of each id, those outside of all subgraphs first, each node in the
first subgraph that lists it, and the edges with known ends, those inside of subgraphs first. -/
def canonical (d : Diagram) : Diagram where
  direction := d.direction
  nodes := (d.distinctNodes.filter fun n => !d.claimed.flatten.contains n.id) ++ d.claimed.flatten.filterMap d.node?
  edges := ((d.claimed.flatMap fun ids => d.edges.filter (·.within ids)) ++
    d.edges.filter fun e => d.resolves e && !d.claimed.any e.within).map Edge.normal
  subgraphs := d.subgraphs.mapIdx fun i g => ⟨g.label, d.claims i g, g.direction⟩

/-- The diagram with other ids. -/
def rename (f : Id → Id) (d : Diagram) : Diagram where
  direction := d.direction
  nodes := d.nodes.map fun n => { n with id := f n.id }
  edges := d.edges.map (·.map f)
  subgraphs := d.subgraphs.map (·.map f)

/-- The diagram with its nodes on the grid, in order. -/
def placed (d : Diagram) : Diagram :=
  { d with nodes := d.nodes.mapIdx fun i n => { n with position := d.direction.grid.position i } }

protected theorem ext {d d' : Diagram} (hdirection : d.direction = d'.direction) (hnodes : d.nodes = d'.nodes)
    (hedges : d.edges = d'.edges) (hsubgraphs : d.subgraphs = d'.subgraphs) : d = d' := by
  cases d
  cases d'
  cases hdirection
  cases hnodes
  cases hedges
  cases hsubgraphs
  rfl

variable {d : Diagram}

/-! ### Homes -/

theorem node?_isSome {id : Id} : (d.node? id).isSome ↔ id ∈ d.nodes.map Node.id := by
  simp [node?, List.find?_isSome]

theorem node?_eq_some {id : Id} {n : Node} (h : d.node? id = some n) : n ∈ d.nodes ∧ n.id = id :=
  ⟨List.mem_of_find?_eq_some h, by simpa using List.find?_some h⟩

theorem mem_claims {i : Nat} {g : Subgraph Id} {id : Id} : id ∈ d.claims i g ↔
    id ∈ g.members ∧ (d.node? id).isSome ∧ ∀ g' ∈ d.subgraphs.take i, id ∉ g'.members := by
  have hfirsts : id ∈ Keyed.firsts (fun id => id) g.members ↔ id ∈ g.members := by
    have h : id ∈ (Keyed.firsts (fun id => id) g.members).map (fun id => id) ↔ id ∈ g.members.map fun id => id :=
      Keyed.mem_map_firsts
    simpa using h
  rw [claims, List.mem_filter, hfirsts]
  simp [List.any_eq_false]

theorem nodup_claims (i : Nat) (g : Subgraph Id) : (d.claims i g).Nodup := by
  have h : ((Keyed.firsts (fun id => id) g.members).map fun id => id).Nodup := Keyed.nodup_map_firsts g.members
  rw [List.map_id'] at h
  exact h.filter _

/-- The home of a node is the subgraph that it belongs to in the canonical form. -/
theorem home?_eq_some_iff {id : Id} {i : Nat} :
    d.home? id = some i ↔ ∃ g, d.subgraphs[i]? = some g ∧ id ∈ d.claims i g := by
  unfold home?
  constructor
  · intro h
    split at h
    · rename_i hnode
      obtain ⟨hi, hmem, hfirst⟩ := List.findIdx?_eq_some_iff_getElem.1 h
      refine ⟨d.subgraphs[i], List.getElem?_eq_getElem hi, mem_claims.2 ⟨by simpa using hmem, hnode, ?_⟩⟩
      intro g' hg'
      obtain ⟨j, hj, rfl⟩ := List.mem_take_iff_getElem.1 hg'
      simpa using hfirst j (by omega)
    · cases h
  · rintro ⟨g, hg, hid⟩
    obtain ⟨hmem, hnode, hfirst⟩ := mem_claims.1 hid
    obtain ⟨hi, rfl⟩ := List.getElem?_eq_some_iff.1 hg
    rw [if_pos hnode, List.findIdx?_eq_some_iff_getElem]
    refine ⟨hi, by simpa using hmem, ?_⟩
    intro j hj
    have hnot := hfirst d.subgraphs[j] (List.mem_take_iff_getElem.2 ⟨j, by omega, rfl⟩)
    simpa using hnot

theorem mem_claimed {id : Id} : id ∈ d.claimed.flatten ↔ ∃ i, d.home? id = some i := by
  simp only [List.mem_flatten, claimed, List.mem_mapIdx, home?_eq_some_iff]
  constructor
  · rintro ⟨_, ⟨i, hi, rfl⟩, hid⟩
    exact ⟨i, _, List.getElem?_eq_getElem hi, hid⟩
  · rintro ⟨i, g, hg, hid⟩
    obtain ⟨hi, rfl⟩ := List.getElem?_eq_some_iff.1 hg
    exact ⟨_, ⟨i, hi, rfl⟩, hid⟩

theorem home?_eq_none_iff {id : Id} : d.home? id = none ↔ id ∉ d.claimed.flatten := by
  rw [mem_claimed, ← Option.isSome_iff_exists, Option.not_isSome_iff_eq_none]

/-! ### The canonical form is what is arranged -/

theorem members_eq {i : Nat} {g : Subgraph Id} (hg : d.subgraphs[i]? = some g) :
    d.members i g = (d.claims i g).filterMap d.node? := by
  rw [members, claims, List.filterMap_filter]
  apply List.filterMap_congr
  intro id hid
  have hhome : d.home? id = some i ↔
      ((d.node? id).isSome && !(d.subgraphs.take i).any (·.members.contains id)) = true := by
    rw [home?_eq_some_iff]
    constructor
    · rintro ⟨g', hg', h⟩
      rw [hg] at hg'
      cases hg'
      exact (List.mem_filter.1 h).2
    · exact fun h => ⟨g, hg, List.mem_filter.2 ⟨hid, h⟩⟩
  by_cases h : d.home? id = some i
  · rw [if_pos h, if_pos (hhome.1 h)]
  · rw [if_neg h, if_neg fun h' => h (hhome.2 h')]

theorem holds_iff {i : Nat} {g : Subgraph Id} (hg : d.subgraphs[i]? = some g) (e : Edge Id) :
    d.holds i e = e.within (d.claims i g) := by
  have hhome : ∀ id, decide (d.home? id = some i) = (d.claims i g).contains id := by
    intro id
    rw [Bool.eq_iff_iff, decide_eq_true_eq, home?_eq_some_iff, List.contains_iff_mem]
    constructor
    · rintro ⟨g', hg', h⟩
      rw [hg] at hg'
      cases hg'
      exact h
    · exact fun h => ⟨g, hg, h⟩
  rw [holds, hhome, hhome, Edge.within]

theorem isInner_iff (e : Edge Id) : d.isInner e = d.claimed.any e.within := by
  rw [Bool.eq_iff_iff, isInner, Option.any_eq_true, List.any_eq_true]
  constructor
  · rintro ⟨i, hi, h⟩
    obtain ⟨g, hg, -⟩ := home?_eq_some_iff.1 hi
    obtain ⟨hlt, rfl⟩ := List.getElem?_eq_some_iff.1 hg
    exact ⟨_, List.mem_mapIdx.2 ⟨i, hlt, rfl⟩, by rwa [← holds_iff hg]⟩
  · rintro ⟨ids, hids, h⟩
    obtain ⟨i, hi, rfl⟩ := List.mem_mapIdx.1 hids
    have hg := List.getElem?_eq_getElem hi
    have hsource : e.source ∈ d.claims i d.subgraphs[i] := by
      simp only [Edge.within, Bool.and_eq_true, List.contains_iff_mem] at h
      exact h.1
    exact ⟨i, home?_eq_some_iff.2 ⟨_, hg, hsource⟩, by rwa [holds_iff hg]⟩

theorem blocks_arrange : d.arrange.blocks = d.subgraphs.mapIdx fun i g =>
    ⟨g.label, g.direction, (d.claims i g).filterMap d.node?, d.edges.filter (·.within (d.claims i g))⟩ := by
  rw [arrange, List.mapIdx_eq_mapIdx_iff]
  intro i hi
  have hg := List.getElem?_eq_getElem hi
  rw [block, members_eq hg]
  congr 1
  apply List.filter_congr
  exact fun e _ => holds_iff hg e

theorem canonical_nodes : d.canonical.nodes = d.arrange.allNodes := by
  have hfree : d.distinctNodes.filter (fun n => !d.claimed.flatten.contains n.id) = d.arrange.nodes := by
    apply List.filter_congr
    intro n _
    rw [Bool.eq_iff_iff, decide_eq_true_eq, home?_eq_none_iff]
    simp
  have hblocks : d.claimed.flatten.filterMap d.node? = d.arrange.blocks.flatMap Block.nodes := by
    rw [blocks_arrange, claimed, List.flatMap_def, List.filterMap_flatten]
    congr 1
    apply List.ext_getElem
    · simp
    · intro i hi hi'
      simp only [List.getElem_map, List.getElem_mapIdx]
  rw [canonical, Arrangement.allNodes, hfree, hblocks]

theorem canonical_edges : d.canonical.edges = d.arrange.allEdges.map Edge.normal := by
  have hinner : (d.claimed.flatMap fun ids => d.edges.filter (·.within ids)) =
      d.arrange.blocks.flatMap Block.edges := by
    rw [blocks_arrange, claimed, List.flatMap_def, List.flatMap_def]
    congr 1
    apply List.ext_getElem
    · simp
    · intro i hi hi'
      simp only [List.getElem_map, List.getElem_mapIdx]
  have houter : d.edges.filter (fun e => d.resolves e && !d.claimed.any e.within) = d.arrange.edges := by
    apply List.filter_congr
    intro e _
    rw [isInner_iff]
  rw [canonical, Arrangement.allEdges, hinner, houter]

private theorem map_id_filterMap_node? {ids : List Id} (h : ∀ id ∈ ids, (d.node? id).isSome) :
    (ids.filterMap d.node?).map Node.id = ids := by
  induction ids with
  | nil => rfl
  | cons id ids ih =>
    obtain ⟨n, hn⟩ := Option.isSome_iff_exists.1 (h id List.mem_cons_self)
    rw [List.filterMap_cons, hn]
    simp only [List.map_cons, (node?_eq_some hn).2, ih fun i hi => h i (List.mem_cons_of_mem _ hi)]

theorem map_id_claims (i : Nat) (g : Subgraph Id) : ((d.claims i g).filterMap d.node?).map Node.id = d.claims i g :=
  map_id_filterMap_node? fun _ hid => (mem_claims.1 hid).2.1

theorem canonical_subgraphs : d.canonical.subgraphs =
    d.arrange.blocks.map fun b => ⟨b.label, b.nodes.map Node.id, b.direction⟩ := by
  rw [blocks_arrange, canonical]
  apply List.ext_getElem
  · simp
  · intro i hi hi'
    simp only [List.getElem_map, List.getElem_mapIdx, map_id_claims]

/-! ### The arrangement is sound -/

theorem mem_nodes_of_arrange {n : Node} (h : n ∈ d.arrange.allNodes) : n ∈ d.nodes := by
  rw [← canonical_nodes] at h
  rcases List.mem_append.1 h with h | h
  · exact Keyed.mem_of_mem_firsts (List.mem_filter.1 h).1
  · obtain ⟨id, -, hid⟩ := List.mem_filterMap.1 h
    exact (node?_eq_some hid).1

theorem mem_edges_of_arrange {e : Edge Id} (h : e ∈ d.arrange.allEdges) : e ∈ d.edges := by
  rcases List.mem_append.1 h with h | h
  · obtain ⟨b, hb, he⟩ := List.mem_flatMap.1 h
    rw [blocks_arrange] at hb
    obtain ⟨i, hi, rfl⟩ := List.mem_mapIdx.1 hb
    exact (List.mem_filter.1 he).1
  · exact (List.mem_filter.1 h).1

theorem nodup_claimed : d.claimed.flatten.Nodup := by
  rw [List.nodup_flatten, List.pairwise_iff_getElem]
  constructor
  · intro ids hids
    obtain ⟨i, hi, rfl⟩ := List.mem_mapIdx.1 hids
    exact nodup_claims i _
  · intro i j hi hj hij id hidi hidj
    simp only [claimed, List.length_mapIdx] at hi hj
    simp only [claimed, List.getElem_mapIdx] at hidi hidj
    have hhomei := home?_eq_some_iff.2 ⟨_, List.getElem?_eq_getElem hi, hidi⟩
    have hhomej := home?_eq_some_iff.2 ⟨_, List.getElem?_eq_getElem hj, hidj⟩
    rw [hhomei] at hhomej
    cases hhomej
    exact Nat.lt_irrefl _ hij

theorem ids_arrange : d.arrange.allNodes.map Node.id = d.arrange.nodes.map Node.id ++ d.claimed.flatten := by
  have hblocks : (d.arrange.blocks.flatMap Block.nodes).map Node.id = d.claimed.flatten := by
    rw [List.map_flatMap, blocks_arrange, claimed, List.flatMap_def]
    congr 1
    apply List.ext_getElem
    · simp
    · intro i hi hi'
      simp only [List.getElem_map, List.getElem_mapIdx, map_id_claims]
  rw [Arrangement.allNodes, List.map_append, hblocks]

theorem mem_ids_arrange {id : Id} : id ∈ d.arrange.allNodes.map Node.id ↔ id ∈ d.nodes.map Node.id := by
  rw [ids_arrange, List.mem_append]
  constructor
  · rintro (h | h)
    · obtain ⟨n, hn, rfl⟩ := List.mem_map.1 h
      exact List.mem_map_of_mem (Keyed.mem_of_mem_firsts (List.mem_filter.1 hn).1)
    · obtain ⟨i, hi⟩ := mem_claimed.1 h
      obtain ⟨g, -, hid⟩ := home?_eq_some_iff.1 hi
      exact node?_isSome.1 (mem_claims.1 hid).2.1
  · intro h
    by_cases hclaimed : id ∈ d.claimed.flatten
    · exact Or.inr hclaimed
    · obtain ⟨n, hn, rfl⟩ := List.mem_map.1 (Keyed.mem_map_firsts.2 h)
      refine Or.inl (List.mem_map_of_mem (List.mem_filter.2 ⟨hn, ?_⟩))
      rw [decide_eq_true_eq, home?_eq_none_iff]
      exact hclaimed

theorem sound_arrange (d : Diagram) : d.arrange.Sound where
  ids := by
    rw [ids_arrange, List.nodup_append]
    refine ⟨?_, nodup_claimed, ?_⟩
    · exact (List.filter_sublist.map Node.id).nodup (Keyed.nodup_map_firsts d.nodes)
    · rintro i hi j hj rfl
      obtain ⟨n, hn, rfl⟩ := List.mem_map.1 hi
      have hhome := (List.mem_filter.1 hn).2
      rw [decide_eq_true_eq, home?_eq_none_iff] at hhome
      exact hhome hj
  inner b hb e he := by
    rw [blocks_arrange] at hb
    obtain ⟨i, hi, rfl⟩ := List.mem_mapIdx.1 hb
    have hwithin := (List.mem_filter.1 he).2
    simp only [Edge.within, Bool.and_eq_true, List.contains_iff_mem] at hwithin
    simpa only [map_id_claims] using hwithin
  outer e he := by
    have hresolves := (List.mem_filter.1 he).2
    simp only [resolves, Bool.and_eq_true, node?_isSome] at hresolves
    exact ⟨mem_ids_arrange.2 hresolves.1.1, mem_ids_arrange.2 hresolves.1.2⟩

/-! ### Labels that are read again -/

/-- The diagram with the labels and shapes of its nodes as they are read again. -/
def reread (d : Diagram) : Diagram := { d with nodes := d.nodes.map Node.reread }

theorem node?_reread (id : Id) : d.reread.node? id = (d.node? id).map Node.reread := by
  rw [node?, reread, List.find?_map]
  rfl

/-- Reading labels again changes the nodes of the canonical form and nothing else. -/
theorem canonical_reread : d.reread.canonical =
    ⟨d.direction, d.canonical.nodes.map Node.reread, d.canonical.edges, d.canonical.subgraphs⟩ := by
  have hknown : ∀ id, (d.reread.node? id).isSome = (d.node? id).isSome := by
    intro id
    rw [node?_reread, Option.isSome_map]
  have hclaims : d.reread.claims = d.claims := by
    funext i g
    simp only [claims, hknown]
    rfl
  have hclaimed : d.reread.claimed = d.claimed := by
    rw [claimed, hclaims]
    rfl
  have hfirsts : d.reread.distinctNodes = d.distinctNodes.map Node.reread := Keyed.firsts_map (fun _ => rfl) d.nodes
  have hfree : d.reread.distinctNodes.filter (fun n => !d.claimed.flatten.contains n.id) =
      (d.distinctNodes.filter fun n => !d.claimed.flatten.contains n.id).map Node.reread := by
    rw [hfirsts, List.filter_map]
    rfl
  have hmembers : d.claimed.flatten.filterMap d.reread.node? =
      (d.claimed.flatten.filterMap d.node?).map Node.reread := by
    rw [List.map_filterMap]
    apply List.filterMap_congr
    intro id _
    exact node?_reread id
  have hresolves : d.reread.resolves = d.resolves := by
    funext e
    simp only [resolves, hknown]
  simp only [canonical, hclaimed, hclaims, hfree, hmembers, hresolves, List.map_append]
  rfl

end Diagram

end DiagramText.Flowchart

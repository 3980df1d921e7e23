import DiagramText.Proofs.Flowchart.RoundTrip

/-!
# Charts under other ids

The lines of a chart do not depend on the ids of its nodes, as long as different ids stay different, nor on their
positions (`lines_move`).  The diagram that holds what a chart says is arranged to the same chart again
(`arrange_flat`).
-/

namespace DiagramText.Flowchart

section

variable (f : Id → Id) (p : Id → Position)

/-- The node with another id and at another place. -/
def Node.move (n : Node) : Node := { n with id := f n.id, position := p n.id }

/-- The block with other ids, and its nodes at other places. -/
def Block.move (b : Block) : Block :=
  ⟨b.label, b.direction, b.nodes.map (Node.move f p), b.edges.map (·.map f)⟩

/-- The chart with other ids, and its nodes at other places. -/
def Arrangement.move (a : Arrangement) : Arrangement where
  direction := a.direction
  nodes := a.nodes.map (Node.move f p)
  blocks := a.blocks.map (Block.move f p)
  edges := a.edges.map (·.map f)

end

/-- A function that keeps different ids of a chart different. -/
def Arrangement.Separates (a : Arrangement) (f : Id → Id) : Prop :=
  ∀ i ∈ a.allNodes.map Node.id, ∀ j ∈ a.allNodes.map Node.id, f i = f j → i = j

/-! ### Lines -/

section

variable {a : Arrangement} {f : Id → Id} {p : Id → Position}

theorem allNodes_move (a : Arrangement) (f : Id → Id) (p : Id → Position) :
    (a.move f p).allNodes = a.allNodes.map (Node.move f p) := by
  rw [Arrangement.allNodes, Arrangement.allNodes, List.map_append, List.map_flatMap, Arrangement.move, List.flatMap_map]
  rfl

private theorem foldl_assign_move {ns : List Node} {names : Naming}
    (h : ∀ i ∈ names.keys ++ ns.map Node.id, ∀ j ∈ names.keys ++ ns.map Node.id, f i = f j → i = j) :
    (ns.map (Node.move f p)).foldl (fun (names : Naming) n => names.assign n.id n.label)
        (names.map fun e => (f e.1, e.2)) =
      (ns.foldl (fun names n => names.assign n.id n.label) names).map fun e => (f e.1, e.2) := by
  induction ns generalizing names with
  | nil => rfl
  | cons n ns ih =>
    have hassign : Naming.assign (names.map fun e => (f e.1, e.2)) (n.move f p).id (n.move f p).label =
        (names.assign n.id n.label).map fun e => (f e.1, e.2) := by
      have hused : Naming.used (names.map fun e => (f e.1, e.2)) = names.used := by
        rw [Naming.used, List.map_map]
        rfl
      rw [Naming.assign, Naming.assign, hused, List.length_map]
      refine Keyed.upsert_map_key (g := f) (k := n.id) ?_ _
      intro j hj
      exact h j (List.mem_append_left _ hj) n.id (by simp)
    rw [List.map_cons, List.foldl_cons, List.foldl_cons, hassign, ih]
    intro i hi j hj
    have hmem : ∀ k ∈ (names.assign n.id n.label).keys ++ ns.map Node.id, k ∈ names.keys ++ (n :: ns).map Node.id := by
      intro k hk
      rw [List.mem_append, Naming.mem_keys_assign] at hk
      rw [List.map_cons, List.mem_append, List.mem_cons, ← or_assoc]
      exact hk
    exact h i (hmem i hi) j (hmem j hj)

/-- A node keeps its name when its id changes. -/
theorem name_move (h : a.Separates f) {id : Id} (hid : id ∈ a.allNodes.map Node.id) :
    (a.move f p).naming.name (f id) = a.naming.name id := by
  have hnaming : (a.move f p).naming = a.naming.map fun e => (f e.1, e.2) := by
    rw [Arrangement.naming, allNodes_move]
    have hnil : Keyed.keys ([] : Naming) = [] := rfl
    exact foldl_assign_move (by rwa [hnil, List.nil_append])
  rw [hnaming, Naming.name, Naming.name, Keyed.get?_map_key]
  intro j hj
  exact h j (Arrangement.mem_keys_naming.1 hj) id hid

private theorem node_line_move {names names' : Naming} {n : Node} (h : names'.name (f n.id) = names.name n.id) :
    (n.move f p).line names' = n.line names := by
  rw [Node.line, Node.line, ← h]
  rfl

private theorem edge_line_move {names names' : Naming} {e : Edge Id}
    (hs : names'.name (f e.source) = names.name e.source) (ht : names'.name (f e.target) = names.name e.target) :
    (e.map f).line names' = e.line names := by
  rw [Edge.line, Edge.line, ← hs, ← ht]
  rfl

private theorem block_lines_move {names names' : Naming} {b : Block}
    (h : ∀ id ∈ b.nodes.map Node.id, names'.name (f id) = names.name id)
    (he : ∀ e ∈ b.edges, e.source ∈ b.nodes.map Node.id ∧ e.target ∈ b.nodes.map Node.id) (size : Int) (i : Nat) :
    (b.move f p).lines size names' i = b.lines size names i := by
  have hnodes : (b.nodes.map (Node.move f p)).map (·.line names') = b.nodes.map (·.line names) := by
    rw [List.map_map]
    apply List.map_congr_left
    intro n hn
    exact node_line_move (h n.id (List.mem_map_of_mem hn))
  have hedges : (b.edges.map (·.map f)).map (·.line names') = b.edges.map (·.line names) := by
    rw [List.map_map]
    apply List.map_congr_left
    intro e hmem
    obtain ⟨hs, ht⟩ := he e hmem
    exact edge_line_move (h _ hs) (h _ ht)
  simp only [Block.lines, Block.move, hnodes, hedges]

/-- The lines of a chart do not depend on ids and positions. -/
theorem lines_move (hs : a.Sound) (h : a.Separates f) (size : Int) : (a.move f p).lines size = a.lines size := by
  have hname : ∀ id ∈ a.allNodes.map Node.id, (a.move f p).naming.name (f id) = a.naming.name id :=
    fun id hid => name_move h hid
  have hnodes : (a.nodes.map (Node.move f p)).map (fun n => Text.indent size 1 ++ n.line (a.move f p).naming) =
      a.nodes.map fun n => Text.indent size 1 ++ n.line a.naming := by
    rw [List.map_map]
    apply List.map_congr_left
    intro n hn
    have hmem : n.id ∈ a.allNodes.map Node.id := List.mem_map_of_mem (List.mem_append_left _ hn)
    exact congrArg (Text.indent size 1 ++ ·) (node_line_move (hname n.id hmem))
  have hblocks : (a.blocks.map (Block.move f p)).mapIdx (Block.lines size (a.move f p).naming) =
      a.blocks.mapIdx (Block.lines size a.naming) := by
    apply List.ext_getElem
    · simp
    · intro i hi hi'
      rw [List.length_mapIdx] at hi'
      have hb := List.getElem_mem hi'
      rw [List.getElem_mapIdx, List.getElem_mapIdx, List.getElem_map]
      apply block_lines_move _ (hs.inner _ hb)
      intro id hid
      obtain ⟨n, hn, rfl⟩ := List.mem_map.1 hid
      exact hname n.id (List.mem_map_of_mem (List.mem_append_right _ (List.mem_flatMap.2 ⟨_, hb, hn⟩)))
  have hedges : (a.edges.map (·.map f)).map (fun e => Text.indent size 1 ++ e.line (a.move f p).naming) =
      a.edges.map fun e => Text.indent size 1 ++ e.line a.naming := by
    rw [List.map_map]
    apply List.map_congr_left
    intro e he
    obtain ⟨hsource, htarget⟩ := hs.outer e he
    exact congrArg (Text.indent size 1 ++ ·) (edge_line_move (hname _ hsource) (hname _ htarget))
  have hunfold : (a.move f p).lines size = [Keyword.flowchart.word ++ ' ' :: a.direction.word] ++
      (a.nodes.map (Node.move f p)).map (fun n => Text.indent size 1 ++ n.line (a.move f p).naming) ++
      ((a.blocks.map (Block.move f p)).mapIdx (Block.lines size (a.move f p).naming)).flatten ++
      (a.edges.map (·.map f)).map (fun e => Text.indent size 1 ++ e.line (a.move f p).naming) := rfl
  rw [hunfold, hnodes, hblocks, hedges]
  rfl

end

/-! ### Arranging again -/

/-- The diagram that holds what a chart says. -/
def Arrangement.flat (a : Arrangement) : Diagram where
  direction := a.direction
  nodes := a.allNodes
  edges := a.allEdges
  subgraphs := a.blocks.map fun b => ⟨b.label, b.nodes.map Node.id, b.direction⟩

/-- No edge behind the blocks joins two nodes of one block. -/
def Arrangement.Apart (a : Arrangement) : Prop :=
  ∀ e ∈ a.edges, ∀ b ∈ a.blocks, e.within (b.nodes.map Node.id) = false

theorem apart_arrange (d : Diagram) : d.arrange.Apart := by
  intro e he b hb
  have hinner := (List.mem_filter.1 he).2
  simp only [Bool.and_eq_true, Bool.not_eq_true', Diagram.isInner_iff, List.any_eq_false] at hinner
  rw [Diagram.blocks_arrange] at hb
  obtain ⟨i, hi, rfl⟩ := List.mem_mapIdx.1 hb
  rw [Diagram.map_id_claims]
  exact Bool.eq_false_iff.2 (hinner.2 _ (List.mem_mapIdx.2 ⟨i, hi, rfl⟩))

/-- A condition that picks the part `i` out of a list of parts. -/
private theorem filter_flatMap {α β : Type} {l : List α} {g : α → List β} {q : β → Bool} {i : Nat} (hi : i < l.length)
    (hin : ∀ x ∈ g l[i], q x = true) (hout : ∀ j (hj : j < l.length), j ≠ i → ∀ x ∈ g l[j], q x = false) :
    (l.flatMap g).filter q = g l[i] := by
  induction l generalizing i with
  | nil => cases hi
  | cons a l ih =>
    rw [List.flatMap_cons, List.filter_append]
    cases i with
    | zero =>
      have hrest : (l.flatMap g).filter q = [] := by
        rw [List.filter_eq_nil_iff]
        intro x hx
        obtain ⟨b, hb, hx⟩ := List.mem_flatMap.1 hx
        obtain ⟨j, hj, rfl⟩ := List.getElem_of_mem hb
        simpa using hout (j + 1) (by simpa using hj) (by omega) x hx
      rw [hrest, List.append_nil]
      exact List.filter_eq_self.2 hin
    | succ i =>
      have hfirst : (g a).filter q = [] := by
        rw [List.filter_eq_nil_iff]
        intro x hx
        simpa using hout 0 (by simp) (by omega) x hx
      rw [hfirst, List.nil_append]
      refine ih (by simpa using hi) hin ?_
      intro j hj hji
      exact hout (j + 1) (by simpa using hj) (by omega)

section

variable {a : Arrangement}

/-- A node is in one block at most. -/
private theorem block_unique (hs : a.Sound) {i j : Nat} (hi : i < a.blocks.length) (hj : j < a.blocks.length) {id : Id}
    (hidi : id ∈ a.blocks[i].nodes.map Node.id) (hidj : id ∈ a.blocks[j].nodes.map Node.id) : i = j := by
  have hnodup := hs.ids
  rw [Arrangement.allNodes, List.map_append, List.map_flatMap, List.flatMap_def] at hnodup
  have hpair := (List.nodup_flatten.1 (List.nodup_append.1 hnodup).2.1).2
  rw [List.pairwise_iff_getElem] at hpair
  have hdisjoint : ∀ i j (hi : i < a.blocks.length) (hj : j < a.blocks.length), i < j →
      id ∈ a.blocks[i].nodes.map Node.id → id ∉ a.blocks[j].nodes.map Node.id := by
    intro i j hi hj hij hidi hidj
    have hne := hpair i j (by simpa using hi) (by simpa using hj) hij
    simp only [List.getElem_map] at hne
    exact hne hidi hidj
  rcases Nat.lt_trichotomy i j with hlt | heq | hgt
  · exact absurd hidj (hdisjoint i j hi hj hlt hidi)
  · exact heq
  · exact absurd hidi (hdisjoint j i hj hi hgt hidj)

private theorem nodup_block (hs : a.Sound) {b : Block} (hb : b ∈ a.blocks) : (b.nodes.map Node.id).Nodup := by
  have hnodup := hs.ids
  rw [Arrangement.allNodes, List.map_append, List.map_flatMap, List.flatMap_def] at hnodup
  exact (List.nodup_flatten.1 (List.nodup_append.1 hnodup).2.1).1 _ (List.mem_map_of_mem hb)

private theorem node?_flat (hs : a.Sound) {n : Node} (hn : n ∈ a.allNodes) : a.flat.node? n.id = some n :=
  Keyed.find?_of_nodup hs.ids hn

private theorem mem_allNodes_of_block {b : Block} (hb : b ∈ a.blocks) {n : Node} (hn : n ∈ b.nodes) :
    n ∈ a.allNodes :=
  List.mem_append_right _ (List.mem_flatMap.2 ⟨b, hb, hn⟩)

private theorem claims_flat (hs : a.Sound) {i : Nat} (hi : i < a.blocks.length) (g : Subgraph Id)
    (hg : g.members = a.blocks[i].nodes.map Node.id) : a.flat.claims i g = a.blocks[i].nodes.map Node.id := by
  have hfirsts : Keyed.firsts (fun id : Id => id) g.members = g.members := by
    apply Keyed.firsts_of_nodup
    rw [List.map_id', hg]
    exact nodup_block hs (List.getElem_mem hi)
  rw [Diagram.claims, hfirsts, hg, List.filter_eq_self]
  intro id hid
  simp only [Bool.and_eq_true, Bool.not_eq_true', List.any_eq_false, List.contains_iff_mem, Diagram.node?_isSome]
  constructor
  · obtain ⟨n, hn, rfl⟩ := List.mem_map.1 hid
    exact List.mem_map_of_mem (mem_allNodes_of_block (List.getElem_mem hi) hn)
  · intro g' hg' hmem
    obtain ⟨j, hj, rfl⟩ := List.mem_take_iff_getElem.1 hg'
    have hlen : j < a.blocks.length := by
      have hle : j < (a.flat.subgraphs).length := by omega
      simpa [Arrangement.flat] using hle
    simp only [Arrangement.flat, List.getElem_map] at hmem
    have heq := block_unique hs hlen hi hmem hid
    omega

private theorem claimed_flat (hs : a.Sound) : a.flat.claimed = a.blocks.map fun b => b.nodes.map Node.id := by
  apply List.ext_getElem
  · simp [Diagram.claimed, Arrangement.flat]
  · intro i hi hi'
    rw [List.length_map] at hi'
    simp only [Diagram.claimed, List.getElem_mapIdx, List.getElem_map]
    exact claims_flat hs hi' _ (by simp [Arrangement.flat])

private theorem filterMap_node?_flat (hs : a.Sound) {b : Block} (hb : b ∈ a.blocks) :
    (b.nodes.map Node.id).filterMap a.flat.node? = b.nodes := by
  rw [List.filterMap_map]
  refine (List.filterMap_congr ?_).trans List.filterMap_some
  intro n hn
  exact node?_flat hs (mem_allNodes_of_block hb hn)

private theorem edges_block_flat (hs : a.Sound) (hapart : a.Apart) {i : Nat} (hi : i < a.blocks.length) :
    a.flat.edges.filter (·.within (a.blocks[i].nodes.map Node.id)) = a.blocks[i].edges := by
  have houter : a.edges.filter (·.within (a.blocks[i].nodes.map Node.id)) = [] := by
    rw [List.filter_eq_nil_iff]
    intro e he
    simp [hapart e he _ (List.getElem_mem hi)]
  have hinner : (a.blocks.flatMap Block.edges).filter (·.within (a.blocks[i].nodes.map Node.id)) =
      a.blocks[i].edges := by
    apply filter_flatMap hi
    · intro e he
      obtain ⟨hsource, htarget⟩ := hs.inner _ (List.getElem_mem hi) e he
      simp [Edge.within, hsource, htarget]
    · intro j hj hji e he
      rw [Bool.eq_false_iff]
      intro hwithin
      simp only [Edge.within, Bool.and_eq_true, List.contains_iff_mem] at hwithin
      exact hji (block_unique hs hj hi (hs.inner _ (List.getElem_mem hj) e he).1 hwithin.1)
  rw [Arrangement.flat, Arrangement.allEdges, List.filter_append, hinner, houter, List.append_nil]

private theorem nodes_arrange_flat (hs : a.Sound) : a.flat.arrange.nodes = a.nodes := by
  have hdistinct : a.flat.distinctNodes = a.nodes ++ a.blocks.flatMap Block.nodes := Keyed.firsts_of_nodup hs.ids
  have hids := hs.ids
  rw [Arrangement.allNodes, List.map_append, List.nodup_append] at hids
  have hclaimed : ∀ id, id ∈ a.flat.claimed.flatten ↔ id ∈ (a.blocks.flatMap Block.nodes).map Node.id := by
    intro id
    rw [claimed_flat hs, List.map_flatMap, List.flatMap_def]
  rw [Diagram.arrange, hdistinct, List.filter_append, List.filter_eq_self.2, List.filter_eq_nil_iff.2,
    List.append_nil]
  · intro n hn
    rw [decide_eq_true_eq, Diagram.home?_eq_none_iff, hclaimed]
    exact fun h => h (List.mem_map_of_mem hn)
  · intro n hn
    rw [decide_eq_true_eq, Diagram.home?_eq_none_iff, hclaimed]
    exact fun h => hids.2.2 _ (List.mem_map_of_mem hn) _ h rfl

private theorem blocks_arrange_flat (hs : a.Sound) (hapart : a.Apart) : a.flat.arrange.blocks = a.blocks := by
  rw [Diagram.blocks_arrange]
  apply List.ext_getElem
  · simp [Arrangement.flat]
  · intro i hi hi'
    have hb := List.getElem_mem hi'
    rw [List.getElem_mapIdx, claims_flat hs hi' _ (by simp [Arrangement.flat]), filterMap_node?_flat hs hb,
      edges_block_flat hs hapart hi']
    simp [Arrangement.flat]

private theorem edges_arrange_flat (hs : a.Sound) (hapart : a.Apart) : a.flat.arrange.edges = a.edges := by
  have hinner : ∀ e, a.flat.isInner e = true ↔ ∃ b ∈ a.blocks, e.within (b.nodes.map Node.id) = true := by
    intro e
    rw [Diagram.isInner_iff, claimed_flat hs, List.any_eq_true]
    simp
  rw [Diagram.arrange]
  show (a.blocks.flatMap Block.edges ++ a.edges).filter _ = a.edges
  rw [List.filter_append, List.filter_eq_nil_iff.2, List.nil_append, List.filter_eq_self.2]
  · intro e he
    obtain ⟨hsource, htarget⟩ := hs.outer e he
    rw [Bool.and_eq_true, Diagram.resolves, Bool.and_eq_true, Diagram.node?_isSome, Diagram.node?_isSome,
      Bool.not_eq_true', Bool.eq_false_iff, Ne, hinner]
    refine ⟨⟨hsource, htarget⟩, ?_⟩
    rintro ⟨b, hb, hwithin⟩
    rw [hapart e he b hb] at hwithin
    cases hwithin
  · intro e he
    obtain ⟨b, hb, he⟩ := List.mem_flatMap.1 he
    obtain ⟨hsource, htarget⟩ := hs.inner b hb e he
    have hwithin : a.flat.isInner e = true := (hinner e).2 ⟨b, hb, by simp [Edge.within, hsource, htarget]⟩
    simp [hwithin]

/-- The diagram that holds what a chart says is arranged to the chart. -/
theorem arrange_flat (hs : a.Sound) (hapart : a.Apart) : a.flat.arrange = a := by
  have hext : ∀ x y : Arrangement, x.direction = y.direction → x.nodes = y.nodes → x.blocks = y.blocks →
      x.edges = y.edges → x = y := by
    rintro ⟨⟩ ⟨⟩ rfl rfl rfl rfl
    rfl
  exact hext _ _ rfl (nodes_arrange_flat hs) (blocks_arrange_flat hs hapart) (edges_arrange_flat hs hapart)

/-! ### Charts under other ids are sound -/

section

variable {f : Id → Id} {p : Id → Position}

private theorem map_id_move (ns : List Node) : (ns.map (Node.move f p)).map Node.id = (ns.map Node.id).map f := by
  rw [List.map_map, List.map_map]
  rfl

private theorem ids_of_block {b : Block} (hb : b ∈ a.blocks) {id : Id} (hid : id ∈ b.nodes.map Node.id) :
    id ∈ a.allNodes.map Node.id := by
  obtain ⟨n, hn, rfl⟩ := List.mem_map.1 hid
  exact List.mem_map_of_mem (mem_allNodes_of_block hb hn)

theorem sound_move (hs : a.Sound) (h : a.Separates f) : (a.move f p).Sound where
  ids := by
    rw [allNodes_move, map_id_move]
    exact List.Nodup.map_on h hs.ids
  inner b hb e he := by
    obtain ⟨b', hb', rfl⟩ := List.mem_map.1 hb
    obtain ⟨e', he', rfl⟩ := List.mem_map.1 he
    obtain ⟨hsource, htarget⟩ := hs.inner b' hb' e' he'
    rw [Block.move, map_id_move]
    exact ⟨List.mem_map_of_mem hsource, List.mem_map_of_mem htarget⟩
  outer e he := by
    obtain ⟨e', he', rfl⟩ := List.mem_map.1 he
    obtain ⟨hsource, htarget⟩ := hs.outer e' he'
    rw [allNodes_move, map_id_move]
    exact ⟨List.mem_map_of_mem hsource, List.mem_map_of_mem htarget⟩

theorem apart_move (hs : a.Sound) (hapart : a.Apart) (h : a.Separates f) : (a.move f p).Apart := by
  intro e' he' b' hb'
  obtain ⟨e, he, rfl⟩ := List.mem_map.1 he'
  obtain ⟨b, hb, rfl⟩ := List.mem_map.1 hb'
  have hback : ∀ id ∈ a.allNodes.map Node.id, f id ∈ (b.nodes.map Node.id).map f → id ∈ b.nodes.map Node.id := by
    intro id hid hmem
    obtain ⟨j, hj, heq⟩ := List.mem_map.1 hmem
    rwa [← h j (ids_of_block hb hj) id hid heq]
  obtain ⟨hsource, htarget⟩ := hs.outer e he
  have hno := hapart e he b hb
  rw [Bool.eq_false_iff] at hno ⊢
  intro hwithin
  rw [Block.move, map_id_move] at hwithin
  simp only [Edge.within, Edge.map, Bool.and_eq_true, List.contains_iff_mem] at hwithin
  refine hno ?_
  simp only [Edge.within, Bool.and_eq_true, List.contains_iff_mem]
  exact ⟨hback _ hsource hwithin.1, hback _ htarget hwithin.2⟩

/-- Placing the nodes of a chart by number is placing them by id. -/
theorem placed_rename_flat (hs : a.Sound) (f : Id → Id) : (a.flat.rename f).placed =
    (a.move f fun id => a.direction.grid.position ((a.allNodes.map Node.id).idxOf id)).flat := by
  have hnodes : (a.flat.rename f).placed.nodes =
      a.allNodes.map (Node.move f fun id => a.direction.grid.position ((a.allNodes.map Node.id).idxOf id)) := by
    apply List.ext_getElem
    · simp [Diagram.placed, Diagram.rename, Arrangement.flat]
    · intro i hi hi'
      rw [List.length_map] at hi'
      have hidx : (a.allNodes.map Node.id).idxOf a.allNodes[i].id = i := by
        have hlen : i < (a.allNodes.map Node.id).length := by simpa using hi'
        have hget : (a.allNodes.map Node.id)[i] = a.allNodes[i].id := List.getElem_map _
        rw [← hget, hs.ids.idxOf_getElem]
      simp only [Diagram.placed, Diagram.rename, Arrangement.flat, List.getElem_mapIdx, List.getElem_map, Node.move,
        hidx]
  have hedges : a.allEdges.map (·.map f) =
      (a.move f fun id => a.direction.grid.position ((a.allNodes.map Node.id).idxOf id)).allEdges := by
    rw [Arrangement.allEdges, Arrangement.allEdges, List.map_append, List.map_flatMap, Arrangement.move,
      List.flatMap_map]
    rfl
  have hsubgraphs : a.flat.subgraphs.map (·.map f) =
      (a.move f fun id => a.direction.grid.position ((a.allNodes.map Node.id).idxOf id)).flat.subgraphs := by
    simp only [Arrangement.flat, Arrangement.move, List.map_map]
    apply List.map_congr_left
    intro b _
    simp [Subgraph.map, Block.move, Node.move]
  exact Diagram.ext rfl (hnodes.trans (allNodes_move a f _).symm) hedges hsubgraphs

end

end

/-- The text of what a chart says is that of the chart, whatever the ids and positions. -/
theorem write_placed_rename_flat {a : Arrangement} (hs : a.Sound) (hapart : a.Apart) {f : Id → Id}
    (h : a.Separates f) (size : Int) : (a.flat.rename f).placed.write size = Text.unlines (a.lines size) := by
  rw [placed_rename_flat hs, Diagram.write, arrange_flat (sound_move hs h) (apart_move hs hapart h), lines_move hs h]

end DiagramText.Flowchart

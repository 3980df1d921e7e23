import DiagramText.Proofs.Flowchart.Canonical

/-!
# What the lines of a chart say

`Diagram.emission` tells of every line that is written what it says (`lines_arrange`), and `inBlocks` tells from the
lines alone in whose block each of them stands.  Each node of a diagram has one line, in the block of the first subgraph
that lists it, and each edge with known ends has one line, in the block that both its ends stand in
(`Diagram.complete_emission`).  A line does not name a node that no line above it introduces (`Declares`), and different
nodes have different names.
-/

namespace DiagramText.Flowchart

/-- What a line of a chart says.  Subgraphs and edges are known by their numbers in the diagram. -/
inductive Line where
  | header (d : Direction)
  | node (n : Node)
  | opening (i : Nat) (label : Text)
  | direction (d : Direction)
  | edge (e : Edge Id) (j : Nat)
  | closing
deriving DecidableEq, Repr

namespace Line

/-- The text of a line, without its indent. -/
def text (names : Naming) : Line → Text
  | header d => Keyword.flowchart.word ++ ' ' :: d.word
  | node n => n.line names
  | opening i label => subgraphWord ++ ' ' :: formatTitle i label
  | direction d => directionLine d
  | edge e _ => e.line names
  | closing => endWord

/-- How far a line is indented, if it stands in the block of a subgraph or in none. -/
def depth : Option Nat → Line → Nat
  | _, header _ => 0
  | none, _ => 1
  | some _, _ => 2

/-- The line neither opens nor closes a block. -/
def isPlain : Line → Bool
  | opening _ _ | closing => false
  | _ => true

def node? : Line → Option Node
  | node n => some n
  | _ => none

def edge? : Line → Option (Edge Id × Nat)
  | edge e j => some (e, j)
  | _ => none

end Line

/-- Each line with the number of the subgraph in whose block it stands, when the first line stands in `block`.  The
lines that open and close a block stand in no block. -/
def inBlocks : (block : Option Nat) → List Line → List (Option Nat × Line)
  | _, [] => []
  | _, .opening i label :: ls => (none, .opening i label) :: inBlocks (some i) ls
  | _, .closing :: ls => (none, .closing) :: inBlocks none ls
  | block, l :: ls => (block, l) :: inBlocks block ls

/-- What `f` finds in lines, with the blocks in which they stand. -/
def located {α : Type} (f : Line → Option α) (ls : List (Option Nat × Line)) : List (Option Nat × α) :=
  ls.filterMap fun l => (f l.2).map (l.1, ·)

namespace Diagram

/-- The edges of a class, with their numbers. -/
def numbered (d : Diagram) (p : Edge Id → Bool) : List (Edge Id × Nat) := d.edges.zipIdx.filter fun e => p e.1

/-- What is written inside the block number `i`. -/
def inside (d : Diagram) (i : Nat) (g : Subgraph Id) : List Line :=
  g.direction.toList.map .direction ++ (d.members i g).map .node ++
    (d.numbered (d.holds i)).map fun e => .edge e.1 e.2

/-- What the lines of a diagram say. -/
def emission (d : Diagram) : List Line :=
  .header d.direction :: d.arrange.nodes.map .node ++
    (d.subgraphs.mapIdx fun i g => .opening i g.label :: (d.inside i g ++ [.closing])).flatten ++
    (d.numbered fun e => d.resolves e && !d.isInner e).map fun e => .edge e.1 e.2

end Diagram

/-! ### Lines in their blocks -/

private theorem map_mapIdx_comp {α β γ : Type} (f : Nat → α → β) (g : β → γ) (l : List α) :
    (l.mapIdx f).map g = l.mapIdx fun i a => g (f i a) := by
  apply List.ext_getElem
  · simp
  · intro i hi hi'
    simp

/-- Lines after which no block is open, whatever comes behind them. -/
private def Closed (ls : List Line) : Prop := ∀ ms, inBlocks none (ls ++ ms) = inBlocks none ls ++ inBlocks none ms

private theorem inBlocks_plain {ls : List Line} (h : ∀ l ∈ ls, l.isPlain = true) (block : Option Nat) (ms : List Line) :
    inBlocks block (ls ++ ms) = ls.map (block, ·) ++ inBlocks block ms := by
  induction ls with
  | nil => rfl
  | cons l ls ih =>
    rw [List.forall_mem_cons] at h
    cases l with
    | opening i label => cases h.1
    | closing => cases h.1
    | header d => exact congrArg _ (ih h.2)
    | node n => exact congrArg _ (ih h.2)
    | direction d => exact congrArg _ (ih h.2)
    | edge e j => exact congrArg _ (ih h.2)

private theorem inBlocks_of_plain {ls : List Line} (h : ∀ l ∈ ls, l.isPlain = true) (block : Option Nat) :
    inBlocks block ls = ls.map (block, ·) := by
  have hnil := inBlocks_plain h block []
  rwa [List.append_nil, inBlocks, List.append_nil] at hnil

private theorem inBlocks_block {ls : List Line} (h : ∀ l ∈ ls, l.isPlain = true) (i : Nat) (label : Text)
    (ms : List Line) : inBlocks none (.opening i label :: (ls ++ [.closing]) ++ ms) =
      (none, .opening i label) :: (ls.map (some i, ·) ++ [(none, .closing)]) ++ inBlocks none ms := by
  rw [List.cons_append, List.append_assoc, inBlocks, inBlocks_plain h]
  simp [inBlocks]

private theorem inBlocks_flatten {L : List (List Line)} (h : ∀ ls ∈ L, Closed ls) (ms : List Line) :
    inBlocks none (L.flatten ++ ms) = (L.map (inBlocks none)).flatten ++ inBlocks none ms := by
  induction L with
  | nil => rfl
  | cons ls L ih =>
    rw [List.forall_mem_cons] at h
    rw [List.flatten_cons, List.append_assoc, h.1, ih h.2, List.map_cons, List.flatten_cons, List.append_assoc]

namespace Diagram

variable {d : Diagram}

private theorem isPlain_inside (i : Nat) (g : Subgraph Id) : ∀ l ∈ d.inside i g, l.isPlain = true := by
  intro l hl
  rcases List.mem_append.1 hl with hl | hl
  · rcases List.mem_append.1 hl with hl | hl
    · obtain ⟨dir, -, rfl⟩ := List.mem_map.1 hl
      rfl
    · obtain ⟨n, -, rfl⟩ := List.mem_map.1 hl
      rfl
  · obtain ⟨e, -, rfl⟩ := List.mem_map.1 hl
    rfl

/-- The lines of a diagram with their blocks. -/
theorem inBlocks_emission (d : Diagram) : inBlocks none d.emission =
    (none, .header d.direction) :: d.arrange.nodes.map (fun n => (none, .node n)) ++
      (d.subgraphs.mapIdx fun i g =>
        (none, .opening i g.label) :: ((d.inside i g).map (some i, ·) ++ [(none, .closing)])).flatten ++
      (d.numbered fun e => d.resolves e && !d.isInner e).map fun e => (none, .edge e.1 e.2) := by
  have hfront : ∀ l ∈ Line.header d.direction :: d.arrange.nodes.map .node, l.isPlain = true := by
    intro l hl
    rcases List.mem_cons.1 hl with rfl | hl
    · rfl
    · obtain ⟨n, -, rfl⟩ := List.mem_map.1 hl
      rfl
  have hback : ∀ l ∈ (d.numbered fun e => d.resolves e && !d.isInner e).map fun e => Line.edge e.1 e.2,
      l.isPlain = true := by
    intro l hl
    obtain ⟨e, -, rfl⟩ := List.mem_map.1 hl
    rfl
  have hblock : ∀ i g, inBlocks none (.opening i g.label :: (d.inside i g ++ [.closing])) =
      (none, .opening i g.label) :: ((d.inside i g).map (some i, ·) ++ [(none, .closing)]) := by
    intro i g
    have h := inBlocks_block (isPlain_inside (d := d) i g) i g.label []
    rwa [List.append_nil, inBlocks, List.append_nil] at h
  have hclosed : ∀ ls ∈ d.subgraphs.mapIdx fun i g => Line.opening i g.label :: (d.inside i g ++ [.closing]),
      Closed ls := by
    intro ls hls ms
    obtain ⟨i, hi, rfl⟩ := List.mem_mapIdx.1 hls
    rw [hblock, inBlocks_block (isPlain_inside i _)]
  rw [emission, List.append_assoc, inBlocks_plain hfront, inBlocks_flatten hclosed, inBlocks_of_plain hback,
    map_mapIdx_comp]
  simp only [hblock, List.map_cons, List.map_map, List.append_assoc]
  rfl

private theorem map_snd_inBlocks (block : Option Nat) (ls : List Line) : (inBlocks block ls).map Prod.snd = ls := by
  fun_induction inBlocks block ls <;> simp_all

/-! ### The text of the lines -/

private theorem map_fst_numbered (p : Edge Id → Bool) : (d.numbered p).map Prod.fst = d.edges.filter p := by
  have h := List.filter_map (f := Prod.fst) (p := p) (l := d.edges.zipIdx)
  rw [List.zipIdx_map_fst] at h
  rw [h]
  rfl

private theorem block_lines (size : Int) (names : Naming) (i : Nat) (g : Subgraph Id) :
    (d.block i g).lines size names i =
      ((none, Line.opening i g.label) :: ((d.inside i g).map (some i, ·) ++ [(none, Line.closing)])).map
        fun l => Text.indent size (l.2.depth l.1) ++ l.2.text names := by
  simp only [Block.lines, block, ← map_fst_numbered, inside, List.map_cons, List.map_append, List.map_map,
    List.cons_append, Function.comp_def, Line.depth, Line.text, List.append_assoc]
  rfl

/-- The lines that are written are those of the emission, in order. -/
theorem lines_arrange (size : Int) (d : Diagram) : d.arrange.lines size =
    (inBlocks none d.emission).map fun l => Text.indent size (l.2.depth l.1) ++ l.2.text d.arrange.naming := by
  have hblocks : d.arrange.blocks.mapIdx (Block.lines size d.arrange.naming) = d.subgraphs.mapIdx fun i g =>
      ((none, Line.opening i g.label) :: ((d.inside i g).map (some i, ·) ++ [(none, Line.closing)])).map
        fun l => Text.indent size (l.2.depth l.1) ++ l.2.text d.arrange.naming := by
    have harrange : d.arrange.blocks = d.subgraphs.mapIdx d.block := rfl
    rw [harrange, List.mapIdx_mapIdx, List.mapIdx_eq_mapIdx_iff]
    exact fun i _ => block_lines size d.arrange.naming i _
  have houter : d.arrange.edges = (d.numbered fun e => d.resolves e && !d.isInner e).map Prod.fst :=
    (map_fst_numbered _).symm
  have hindent : Text.indent size 0 = [] := by simp [Text.indent]
  rw [inBlocks_emission, Arrangement.lines, hblocks, houter, List.map_append, List.map_append, List.map_flatten,
    map_mapIdx_comp, List.map_cons, List.map_map, List.map_map, List.map_map]
  simp only [Line.depth, hindent]
  rfl

/-! ### Lines of nodes and edges -/

private theorem located_plain {α : Type} (f : Line → Option α) (block : Option Nat) (ls : List Line) :
    located f (ls.map (block, ·)) = (ls.filterMap f).map (block, ·) := by
  rw [located, List.filterMap_map, List.map_filterMap]
  rfl

private theorem located_append {α : Type} (f : Line → Option α) (ls ms : List (Option Nat × Line)) :
    located f (ls ++ ms) = located f ls ++ located f ms := List.filterMap_append

private theorem map_snd_located {α : Type} (f : Line → Option α) (ls : List (Option Nat × Line)) :
    (located f ls).map Prod.snd = (ls.map Prod.snd).filterMap f := by
  rw [located, List.map_filterMap, List.filterMap_map]
  apply List.filterMap_congr
  rintro ⟨b, l⟩ -
  rw [Function.comp_apply]
  cases f l <;> rfl

/-- What is found in the lines of a diagram: inside the blocks, and outside of them. -/
private theorem located_emission {α : Type} {f : Line → Option α} (hheader : ∀ dir, f (.header dir) = none)
    (hopening : ∀ i label, f (.opening i label) = none) (hclosing : f .closing = none) (d : Diagram) :
    located f (inBlocks none d.emission) =
      ((d.arrange.nodes.map .node).filterMap f).map (none, ·) ++
        (d.subgraphs.mapIdx fun i g => ((d.inside i g).filterMap f).map (some i, ·)).flatten ++
        (((d.numbered fun e => d.resolves e && !d.isInner e).map fun e => .edge e.1 e.2).filterMap f).map
          (none, ·) := by
  have hblock : ∀ i g, located f ((none, .opening i g.label) :: ((d.inside i g).map (some i, ·) ++
      [(none, .closing)])) = ((d.inside i g).filterMap f).map (some i, ·) := by
    intro i g
    have hclose : located f [(none, .closing)] = [] := by simp [located, hclosing]
    rw [located, List.filterMap_cons, hopening]
    exact (located_append f _ _).trans (by rw [located_plain, hclose, List.append_nil])
  have hflatten : ∀ L : List (List (Option Nat × Line)), located f L.flatten = (L.map (located f)).flatten :=
    fun L => List.filterMap_flatten
  have hfront := located_plain f none (d.arrange.nodes.map .node)
  have hback := located_plain f none ((d.numbered fun e => d.resolves e && !d.isInner e).map fun e => .edge e.1 e.2)
  rw [List.map_map] at hfront hback
  rw [inBlocks_emission, located_append, located_append, hflatten, map_mapIdx_comp, ← hfront, ← hback]
  simp only [hblock]
  congr 2
  rw [located, List.filterMap_cons, hheader]
  rfl

private theorem nodes_inside (i : Nat) (g : Subgraph Id) : (d.inside i g).filterMap Line.node? = d.members i g := by
  simp [inside, List.filterMap_append, List.filterMap_map, Function.comp_def, Line.node?]

private theorem edges_inside (i : Nat) (g : Subgraph Id) :
    (d.inside i g).filterMap Line.edge? = d.numbered (d.holds i) := by
  simp [inside, List.filterMap_append, List.filterMap_map, Function.comp_def, Line.edge?]

private theorem nodeLines_emission (d : Diagram) : located Line.node? (inBlocks none d.emission) =
    d.arrange.nodes.map (none, ·) ++ (d.subgraphs.mapIdx fun i g => (d.members i g).map (some i, ·)).flatten := by
  rw [located_emission (fun _ => rfl) (fun _ _ => rfl) rfl]
  simp [nodes_inside, List.filterMap_map, Function.comp_def, Line.node?]

private theorem edgeLines_emission (d : Diagram) : located Line.edge? (inBlocks none d.emission) =
    (d.subgraphs.mapIdx fun i _ => (d.numbered (d.holds i)).map (some i, ·)).flatten ++
      (d.numbered fun e => d.resolves e && !d.isInner e).map (none, ·) := by
  rw [located_emission (fun _ => rfl) (fun _ _ => rfl) rfl]
  simp [edges_inside, List.filterMap_map, Function.comp_def, Line.edge?]

/-! ### Where nodes stand -/

theorem mem_distinctNodes {n : Node} : n ∈ d.distinctNodes ↔ d.node? n.id = some n := Keyed.mem_firsts

/-- The first node of an id has its line in its home. -/
private theorem mem_nodeLines {b : Option Nat} {n : Node} : (b, n) ∈ located Line.node? (inBlocks none d.emission) ↔
    d.node? n.id = some n ∧ b = d.home? n.id := by
  rw [nodeLines_emission, List.mem_append, List.mem_map, List.mem_flatten]
  constructor
  · rintro (⟨m, hm, he⟩ | ⟨ms, hms, hmem⟩)
    · obtain ⟨rfl, rfl⟩ := Prod.mk.inj he
      obtain ⟨hfirst, hhome⟩ := List.mem_filter.1 hm
      exact ⟨mem_distinctNodes.1 hfirst, (of_decide_eq_true hhome).symm⟩
    · obtain ⟨i, hi, rfl⟩ := List.mem_mapIdx.1 hms
      obtain ⟨m, hm, he⟩ := List.mem_map.1 hmem
      obtain ⟨rfl, rfl⟩ := Prod.mk.inj he
      rw [members_eq (List.getElem?_eq_getElem hi)] at hm
      obtain ⟨id, hid, hnode⟩ := List.mem_filterMap.1 hm
      obtain ⟨-, rfl⟩ := node?_eq_some hnode
      exact ⟨hnode, (home?_eq_some_iff.2 ⟨_, List.getElem?_eq_getElem hi, hid⟩).symm⟩
  · rintro ⟨hnode, rfl⟩
    cases hhome : d.home? n.id with
    | none =>
      refine Or.inl ⟨n, List.mem_filter.2 ⟨mem_distinctNodes.2 hnode, ?_⟩, rfl⟩
      rw [hhome, decide_eq_true rfl]
    | some i =>
      obtain ⟨g, hg, hid⟩ := home?_eq_some_iff.1 hhome
      obtain ⟨hi, rfl⟩ := List.getElem?_eq_some_iff.1 hg
      refine Or.inr ⟨_, List.mem_mapIdx.2 ⟨i, hi, rfl⟩, List.mem_map_of_mem ?_⟩
      rw [members_eq hg]
      exact List.mem_filterMap.2 ⟨n.id, hid, hnode⟩

/-- The nodes that stand in a block are those whose home it is. -/
theorem exists_nodeLine_iff {b : Option Nat} {id : Id} :
    (∃ n, (b, n) ∈ located Line.node? (inBlocks none d.emission) ∧ n.id = id) ↔
      (d.node? id).isSome ∧ d.home? id = b := by
  constructor
  · rintro ⟨n, hn, rfl⟩
    obtain ⟨hnode, hb⟩ := mem_nodeLines.1 hn
    exact ⟨by rw [hnode]; rfl, hb.symm⟩
  · rintro ⟨hknown, rfl⟩
    obtain ⟨n, hn⟩ := Option.isSome_iff_exists.1 hknown
    obtain ⟨-, rfl⟩ := node?_eq_some hn
    exact ⟨n, mem_nodeLines.2 ⟨hn, rfl⟩, rfl⟩

private theorem map_snd_nodeLines (d : Diagram) :
    (located Line.node? (inBlocks none d.emission)).map Prod.snd = d.arrange.allNodes := by
  have harrange : d.arrange.blocks = d.subgraphs.mapIdx d.block := rfl
  rw [nodeLines_emission, List.map_append, List.map_map, List.map_flatten, map_mapIdx_comp, Arrangement.allNodes,
    List.flatMap_def, harrange, map_mapIdx_comp]
  simp only [List.map_map, Function.comp_def, List.map_id', block]

/-- The lines of the nodes of an id: the first of them has one, in the block of the first subgraph that lists the id. -/
theorem filter_nodeLines (d : Diagram) (id : Id) :
    (located Line.node? (inBlocks none d.emission)).filter (fun l => l.2.id = id) =
      (d.node? id).toList.map fun n => (d.subgraphs.findIdx? (·.members.contains id), n) := by
  have hids : ((located Line.node? (inBlocks none d.emission)).map fun l => l.2.id).Nodup := by
    have hsound := (sound_arrange d).ids
    rwa [← map_snd_nodeLines, List.map_map] at hsound
  cases hnode : d.node? id with
  | none =>
    rw [Option.toList_none, List.map_nil, List.filter_eq_nil_iff]
    rintro ⟨b, n⟩ hn
    rw [decide_eq_true_eq]
    rintro rfl
    rw [(mem_nodeLines.1 hn).1] at hnode
    cases hnode
  | some n =>
    obtain ⟨-, rfl⟩ := node?_eq_some hnode
    have hhome : d.home? n.id = d.subgraphs.findIdx? (·.members.contains n.id) := by
      rw [home?, if_pos (by rw [hnode]; rfl)]
    rw [← hhome]
    have hline : (d.home? n.id, n) ∈ located Line.node? (inBlocks none d.emission) := mem_nodeLines.2 ⟨hnode, rfl⟩
    exact Keyed.filter_of_nodup hids hline

/-! ### Where edges stand -/

private theorem mem_numbered {p : Edge Id → Bool} {e : Edge Id × Nat} :
    e ∈ d.numbered p ↔ d.edges[e.2]? = some e.1 ∧ p e.1 = true := by
  rw [numbered, List.mem_filter, List.mem_zipIdx_iff_getElem?]

private theorem resolves_of_holds {i : Nat} {e : Edge Id} (h : d.holds i e = true) : d.resolves e = true := by
  have hknown : ∀ {id}, d.home? id = some i → (d.node? id).isSome = true := by
    intro id hid
    obtain ⟨g, -, hclaims⟩ := home?_eq_some_iff.1 hid
    exact (mem_claims.1 hclaims).2.1
  simp only [holds, Bool.and_eq_true, decide_eq_true_eq] at h
  rw [resolves, hknown h.1, hknown h.2]
  rfl

private theorem isInner_of_holds {i : Nat} {e : Edge Id} (h : d.holds i e = true) : d.isInner e = true := by
  have hsource : d.home? e.source = some i := by
    simp only [holds, Bool.and_eq_true, decide_eq_true_eq] at h
    exact h.1
  rw [isInner, hsource]
  exact h

/-- An edge with known ends has its line in the block that holds it, or outside of all blocks. -/
private theorem mem_edgeLines {b : Option Nat} {e : Edge Id × Nat} :
    (b, e) ∈ located Line.edge? (inBlocks none d.emission) ↔
      d.edges[e.2]? = some e.1 ∧ d.resolves e.1 = true ∧ ∀ i, b = some i ↔ d.holds i e.1 = true := by
  rw [edgeLines_emission, List.mem_append, List.mem_flatten, List.mem_map]
  constructor
  · rintro (⟨es, hes, hmem⟩ | ⟨e', he', heq⟩)
    · obtain ⟨i, hi, rfl⟩ := List.mem_mapIdx.1 hes
      obtain ⟨e', he', heq⟩ := List.mem_map.1 hmem
      obtain ⟨rfl, rfl⟩ := Prod.mk.inj heq
      obtain ⟨hedge, hholds⟩ := mem_numbered.1 he'
      refine ⟨hedge, resolves_of_holds hholds, fun k => ?_⟩
      simp only [holds, Bool.and_eq_true, decide_eq_true_eq] at hholds ⊢
      rw [hholds.1, hholds.2, and_self]
    · obtain ⟨rfl, rfl⟩ := Prod.mk.inj heq
      obtain ⟨hedge, houter⟩ := mem_numbered.1 he'
      rw [Bool.and_eq_true, Bool.not_eq_true'] at houter
      refine ⟨hedge, houter.1, fun k => ⟨fun hk => absurd hk.symm (Option.some_ne_none k), fun hholds => ?_⟩⟩
      rw [isInner_of_holds hholds] at houter
      exact absurd houter.2 Bool.noConfusion
  · rintro ⟨hedge, hresolves, hholds⟩
    cases b with
    | some i =>
      have hi := (hholds i).1 rfl
      have hsource : d.home? e.1.source = some i := by
        simp only [holds, Bool.and_eq_true, decide_eq_true_eq] at hi
        exact hi.1
      obtain ⟨g, hg, -⟩ := home?_eq_some_iff.1 hsource
      obtain ⟨hlt, -⟩ := List.getElem?_eq_some_iff.1 hg
      exact Or.inl ⟨_, List.mem_mapIdx.2 ⟨i, hlt, rfl⟩, List.mem_map_of_mem (mem_numbered.2 ⟨hedge, hi⟩)⟩
    | none =>
      refine Or.inr ⟨e, mem_numbered.2 ⟨hedge, ?_⟩, rfl⟩
      have hinner : d.isInner e.1 = false := by
        rw [isInner, Option.any_eq_false]
        intro i _
        exact Bool.eq_false_iff.2 fun hi => Option.some_ne_none i ((hholds i).2 hi).symm
      rw [hresolves, hinner]
      rfl

private theorem nodup_numbered (p : Edge Id → Bool) : (d.numbered p).Nodup := by
  refine (List.Nodup.of_map Prod.snd ?_).filter _
  rw [List.zipIdx_map_snd]
  exact List.nodup_range' 1

private theorem nodup_edgeLines (d : Diagram) :
    ((located Line.edge? (inBlocks none d.emission)).map Prod.snd).Nodup := by
  have hlines : (located Line.edge? (inBlocks none d.emission)).map Prod.snd =
      (d.subgraphs.mapIdx fun i _ => d.numbered (d.holds i)).flatten ++
        d.numbered fun e => d.resolves e && !d.isInner e := by
    rw [edgeLines_emission, List.map_append, List.map_flatten, map_mapIdx_comp]
    simp only [List.map_map, Function.comp_def, List.map_id']
  rw [hlines, List.nodup_append, List.nodup_flatten, List.pairwise_iff_getElem]
  refine ⟨⟨?_, ?_⟩, nodup_numbered _, ?_⟩
  · intro es hes
    obtain ⟨i, hi, rfl⟩ := List.mem_mapIdx.1 hes
    exact nodup_numbered _
  · intro i j hi hj hij e hei hej
    rw [List.getElem_mapIdx, mem_numbered] at hei hej
    simp only [holds, Bool.and_eq_true, decide_eq_true_eq] at hei hej
    have hsame := hei.2.1.symm.trans hej.2.1
    cases hsame
    exact Nat.lt_irrefl _ hij
  · rintro e he e' he' rfl
    obtain ⟨es, hes, hmem⟩ := List.mem_flatten.1 he
    obtain ⟨i, hi, rfl⟩ := List.mem_mapIdx.1 hes
    have houter := (mem_numbered.1 he').2
    rw [isInner_of_holds (mem_numbered.1 hmem).2] at houter
    simp at houter

private theorem mem_map_edgeLines {e : Edge Id × Nat} :
    e ∈ (located Line.edge? (inBlocks none d.emission)).map Prod.snd ↔
      d.edges[e.2]? = some e.1 ∧ d.resolves e.1 = true := by
  rw [List.mem_map]
  constructor
  · rintro ⟨⟨b, e⟩, he, rfl⟩
    obtain ⟨hedge, hresolves, -⟩ := mem_edgeLines.1 he
    exact ⟨hedge, hresolves⟩
  · rintro ⟨hedge, hresolves⟩
    refine ⟨((d.home? e.1.source).filter fun i => d.holds i e.1, e), mem_edgeLines.2 ⟨hedge, hresolves, ?_⟩, rfl⟩
    intro i
    rw [Option.filter_eq_some_iff]
    refine ⟨And.right, fun hi => ⟨?_, hi⟩⟩
    simp only [holds, Bool.and_eq_true, decide_eq_true_eq] at hi
    exact hi.1

/-- The edges that have lines are those with known ends, each as often as the diagram has it. -/
theorem edgeLines_perm (d : Diagram) :
    ((located Line.edge? (inBlocks none d.emission)).map fun l => l.2.1).Perm (d.edges.filter d.resolves) := by
  have hnumbered : ((located Line.edge? (inBlocks none d.emission)).map Prod.snd).Perm (d.numbered d.resolves) := by
    rw [List.perm_ext_iff_of_nodup (nodup_edgeLines d) (nodup_numbered _)]
    intro e
    rw [mem_map_edgeLines, mem_numbered]
  have hedges := hnumbered.map Prod.fst
  rwa [List.map_map, map_fst_numbered] at hedges

/-- The lines of an edge: it has one if its ends are known. -/
private theorem filter_edgeLines (j : Nat) :
    ((located Line.edge? (inBlocks none d.emission)).map Prod.snd).filter (fun e => e.2 = j) =
      ((d.edges[j]?).filter d.resolves).toList.map (·, j) := by
  -- an edge may come twice in a diagram, but under two numbers
  have hnumbers : (((located Line.edge? (inBlocks none d.emission)).map Prod.snd).map Prod.snd).Nodup := by
    refine (nodup_edgeLines d).map_on ?_
    intro e he e' he' hnumber
    have hsame := (mem_map_edgeLines.1 he).1.symm.trans (hnumber ▸ (mem_map_edgeLines.1 he').1)
    exact Prod.ext (Option.some.inj hsame) hnumber
  cases hedge : (d.edges[j]?).filter d.resolves with
  | none =>
    rw [Option.toList_none, List.map_nil, List.filter_eq_nil_iff]
    rintro ⟨e, k⟩ he
    rw [decide_eq_true_eq]
    rintro rfl
    obtain ⟨hk, hresolves⟩ := mem_map_edgeLines.1 he
    rw [hk, Option.filter_some, if_pos hresolves] at hedge
    cases hedge
  | some e =>
    have he : (e, j) ∈ (located Line.edge? (inBlocks none d.emission)).map Prod.snd :=
      mem_map_edgeLines.2 (Option.filter_eq_some_iff.1 hedge)
    exact Keyed.filter_of_nodup hnumbers he

/-! ### Nodes come before the edges that name them -/

end Diagram

/-- The ids that lines introduce. -/
def introduced (ls : List Line) : List Id := (ls.filterMap Line.node?).map Node.id

/-- Edges name only the ids of `known` and those that a line above introduces. -/
private def Declares (known : List Id) : List Line → Prop
  | [] => True
  | l :: ls =>
    (∀ e ∈ l.edge?, e.1.source ∈ known ∧ e.1.target ∈ known) ∧ Declares (known ++ introduced [l]) ls

private theorem introduced_append (ls ms : List Line) : introduced (ls ++ ms) = introduced ls ++ introduced ms := by
  rw [introduced, List.filterMap_append, List.map_append]
  rfl

private theorem introduced_cons (l : Line) (ls : List Line) : introduced (l :: ls) = introduced [l] ++ introduced ls :=
  introduced_append [l] ls

namespace Declares

variable {known : List Id} {ls : List Line}

private theorem mono (h : Declares known ls) {known' : List Id} (hsub : known ⊆ known') : Declares known' ls := by
  induction ls generalizing known known' with
  | nil => exact h
  | cons l ls ih =>
    have hsub' : known ++ introduced [l] ⊆ known' ++ introduced [l] :=
      List.append_subset.2 ⟨List.subset_append_of_subset_left _ hsub, List.subset_append_right _ _⟩
    refine ⟨fun e he => ?_, ih h.2 hsub'⟩
    obtain ⟨hsource, htarget⟩ := h.1 e he
    exact ⟨hsub hsource, hsub htarget⟩

private theorem append {ms : List Line} (hl : Declares known ls) (hm : Declares (known ++ introduced ls) ms) :
    Declares known (ls ++ ms) := by
  induction ls generalizing known with
  | nil => rwa [introduced, List.filterMap_nil, List.map_nil, List.append_nil] at hm
  | cons l ls ih =>
    rw [introduced_cons, ← List.append_assoc] at hm
    exact ⟨hl.1, ih hl.2 hm⟩

/-- Parts that need nothing from outside can be put together. -/
private theorem flatten {L : List (List Line)} (h : ∀ ls ∈ L, Declares [] ls) : Declares known L.flatten := by
  induction L generalizing known with
  | nil => trivial
  | cons ls L ih =>
    rw [List.forall_mem_cons] at h
    exact (h.1.mono (List.nil_subset _)).append (ih h.2)

/-- The ends of an edge are introduced above its line. -/
private theorem split {before after : List Line} {e : Edge Id} {j : Nat}
    (h : Declares known (before ++ .edge e j :: after)) :
    e.source ∈ known ++ introduced before ∧ e.target ∈ known ++ introduced before := by
  induction before generalizing known with
  | nil =>
    obtain ⟨hsource, htarget⟩ := h.1 (e, j) rfl
    exact ⟨List.mem_append_left _ hsource, List.mem_append_left _ htarget⟩
  | cons l before ih =>
    rw [introduced_cons, ← List.append_assoc]
    exact ih h.2

private theorem of_no_edge (h : ∀ l ∈ ls, l.edge? = none) : Declares known ls := by
  induction ls generalizing known with
  | nil => trivial
  | cons l ls ih =>
    rw [List.forall_mem_cons] at h
    exact ⟨by simp [h.1], ih h.2⟩

private theorem edges {es : List (Edge Id × Nat)} (h : ∀ e ∈ es, e.1.source ∈ known ∧ e.1.target ∈ known) :
    Declares known (es.map fun e => .edge e.1 e.2) := by
  induction es with
  | nil => trivial
  | cons e es ih =>
    rw [List.forall_mem_cons] at h
    refine ⟨by simpa [Line.edge?] using h.1, ?_⟩
    exact (ih h.2).mono (List.subset_append_left _ _)

end Declares

namespace Diagram

variable {d : Diagram}

/-- A block needs no node from outside. -/
private theorem declares_block {i : Nat} {g : Subgraph Id} (hg : d.subgraphs[i]? = some g) :
    Declares [] (.opening i g.label :: (d.inside i g ++ [.closing])) := by
  have hfront : ∀ l ∈ Line.opening i g.label :: (g.direction.toList.map Line.direction ++
      (d.members i g).map Line.node), l.edge? = none := by
    intro l hl
    rcases List.mem_cons.1 hl with rfl | hl
    · rfl
    rcases List.mem_append.1 hl with hl | hl
    · obtain ⟨dir, -, rfl⟩ := List.mem_map.1 hl
      rfl
    · obtain ⟨n, -, rfl⟩ := List.mem_map.1 hl
      rfl
  have hmembers : introduced (.opening i g.label :: (g.direction.toList.map .direction ++
      (d.members i g).map .node)) = (d.members i g).map Node.id := by
    simp [introduced, List.filterMap_cons, List.filterMap_append, List.filterMap_map, Function.comp_def, Line.node?]
  have hinner : ∀ e ∈ d.numbered (d.holds i), e.1.source ∈ [] ++ (d.members i g).map Node.id ∧
      e.1.target ∈ [] ++ (d.members i g).map Node.id := by
    intro e he
    have hholds := (mem_numbered.1 he).2
    rw [List.nil_append, members_eq hg, map_id_claims]
    rw [holds_iff hg] at hholds
    simpa [Edge.within] using hholds
  rw [← hmembers] at hinner
  have hclosing : ∀ l ∈ [Line.closing], l.edge? = none := by simp [Line.edge?]
  have hblock := ((Declares.of_no_edge hfront).append (Declares.edges hinner)).append (Declares.of_no_edge hclosing)
  simpa only [inside, List.cons_append, List.append_assoc] using hblock

private theorem introduced_emission (d : Diagram) : introduced d.emission = d.arrange.allNodes.map Node.id := by
  rw [← map_snd_nodeLines, map_snd_located, map_snd_inBlocks]
  rfl

private theorem declares_emission (d : Diagram) : Declares [] d.emission := by
  have hfront : ∀ l ∈ Line.header d.direction :: d.arrange.nodes.map .node, l.edge? = none := by
    intro l hl
    rcases List.mem_cons.1 hl with rfl | hl
    · rfl
    · obtain ⟨n, -, rfl⟩ := List.mem_map.1 hl
      rfl
  have hblocks : ∀ ls ∈ d.subgraphs.mapIdx fun i g => Line.opening i g.label :: (d.inside i g ++ [.closing]),
      Declares [] ls := by
    intro ls hls
    obtain ⟨i, hi, rfl⟩ := List.mem_mapIdx.1 hls
    exact declares_block (List.getElem?_eq_getElem hi)
  have houter : ∀ e ∈ d.numbered fun e => d.resolves e && !d.isInner e,
      e.1.source ∈ introduced d.emission ∧ e.1.target ∈ introduced d.emission := by
    intro e he
    have hresolves := (Bool.and_eq_true _ _ ▸ (mem_numbered.1 he).2).1
    simp only [resolves, Bool.and_eq_true, node?_isSome] at hresolves
    rw [introduced_emission]
    exact ⟨mem_ids_arrange.2 hresolves.1, mem_ids_arrange.2 hresolves.2⟩
  -- the edges behind the blocks introduce nothing, so all that is introduced stands in front of them
  have hnothing : ∀ es : List (Edge Id × Nat), introduced (es.map fun e => .edge e.1 e.2) = [] := by
    intro es
    simp [introduced, List.filterMap_map, Function.comp_def, Line.node?]
  rw [emission, introduced_append, hnothing, List.append_nil] at houter
  rw [emission]
  exact ((Declares.of_no_edge hfront).append (Declares.flatten hblocks)).append (Declares.edges houter)

/-! ### Everything once -/

/-- What the lines of a diagram say, with their blocks: each node once, for the first of its id and in the block of the
first subgraph that lists it; each edge with known ends once, in the block that both its ends stand in; and no edge
above its ends. -/
structure Complete (d : Diagram) (ls : List (Option Nat × Line)) : Prop where
  node : ∀ id, (located Line.node? ls).filter (fun l => l.2.id = id) =
    (d.node? id).toList.map fun n => (d.subgraphs.findIdx? (·.members.contains id), n)
  edge : ∀ j, ((located Line.edge? ls).map Prod.snd).filter (fun e => e.2 = j) =
    ((d.edges[j]?).filter d.resolves).toList.map (·, j)
  inner : ∀ b e, (b, e) ∈ located Line.edge? ls → ∀ i, b = some i ↔
    (∃ n, (some i, n) ∈ located Line.node? ls ∧ n.id = e.1.source) ∧
      ∃ n, (some i, n) ∈ located Line.node? ls ∧ n.id = e.1.target
  above : ∀ before e j after, ls.map Prod.snd = before ++ .edge e j :: after →
    e.source ∈ introduced before ∧ e.target ∈ introduced before

/-- The lines of the text of a diagram hold each node and each edge with known ends once, in its block and with its ends
above it, and different nodes have different names. -/
theorem complete_emission (d : Diagram) (size : Int) :
    (d.arrange.lines size = (inBlocks none d.emission).map fun l =>
      Text.indent size (l.2.depth l.1) ++ l.2.text d.arrange.naming) ∧
    d.Complete (inBlocks none d.emission) ∧
    ∀ i ∈ d.nodes.map Node.id, ∀ j ∈ d.nodes.map Node.id,
      d.arrange.naming.name i = d.arrange.naming.name j → i = j := by
  refine ⟨lines_arrange size d, ⟨d.filter_nodeLines, filter_edgeLines, ?_, ?_⟩, ?_⟩
  · intro b e he i
    obtain ⟨-, hresolves, hblock⟩ := mem_edgeLines.1 he
    simp only [resolves, Bool.and_eq_true] at hresolves
    rw [hblock, exists_nodeLine_iff, exists_nodeLine_iff, holds, Bool.and_eq_true, decide_eq_true_eq,
      decide_eq_true_eq, and_iff_right hresolves.1, and_iff_right hresolves.2]
  · intro before e j after hsplit
    rw [map_snd_inBlocks] at hsplit
    have hdeclares := declares_emission d
    rw [hsplit] at hdeclares
    exact hdeclares.split
  · intro i hi j hj hname
    exact Arrangement.name_inj (mem_ids_arrange.2 hi) (mem_ids_arrange.2 hj) hname

end Diagram

end DiagramText.Flowchart

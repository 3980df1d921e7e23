import DiagramText.Proofs.Graph.Links
import Mathlib.Data.Fintype.EquivFin
import Mathlib.Logic.Relation

/-!
# The topological order of a graph

Nodes are finished one after the other, each once all links to it start from finished nodes.  A finished or queued node
is ready, and every ready node is finished or queued (`Draining`); each step keeps this (`Draining.step`), so a run of
as many steps as there are nodes ends with an empty queue (`draining_order`).  If no link leads back to where links come
from, every node gets ready and is finished behind all that leads to it; on a cycle none ever gets ready
(`isAcyclic_iff`).  For the graph of a diagram this is told from its ties (`topologicalOrder?_ofDiagram`).
-/

namespace DiagramText.Graph

/-- A link leads from a node to another, or to itself. -/
def Leads (g : Graph) (u v : Id) : Prop := (u, v) ∈ g.links.keys

/-- Nodes and links come once, and links lead from nodes to nodes. -/
structure Proper (g : Graph) : Prop where
  nodes : g.nodes.keys.Nodup
  links : g.links.keys.Nodup
  ends : ∀ {u v}, g.Leads u v → u ∈ g.nodes.keys ∧ v ∈ g.nodes.keys

variable {g : Graph}

theorem isReady_iff {done : List Id} {v : Id} : g.isReady done v = true ↔ ∀ u, g.Leads u v → u ∈ done := by
  simp only [isReady, List.all_eq_true, Bool.or_eq_true, decide_eq_true_eq, List.contains_iff_mem, Leads, Keyed.keys,
    List.mem_map]
  constructor
  · rintro h u ⟨l, hl, he⟩
    have hready := h l hl
    rw [he] at hready
    exact hready.resolve_left fun hne => hne rfl
  · intro h l hl
    by_cases hv : l.1.2 = v
    · exact Or.inr (h l.1.1 ⟨l, hl, by rw [← hv]⟩)
    · exact Or.inl hv

theorem mem_successors {u v : Id} : v ∈ g.successors u ↔ g.Leads u v := by
  simp only [successors, Leads, Keyed.keys, List.mem_map, List.mem_filter, decide_eq_true_eq]
  constructor
  · rintro ⟨l, ⟨hl, rfl⟩, rfl⟩
    exact ⟨l, hl, rfl⟩
  · rintro ⟨l, hl, he⟩
    exact ⟨l, ⟨hl, congrArg Prod.fst he⟩, congrArg Prod.snd he⟩

theorem Proper.nodup_successors (h : g.Proper) (u : Id) : (g.successors u).Nodup := by
  -- of the links from one node no two lead to the same one
  have hlinks : (g.links.filter fun l => l.1.1 = u).Pairwise fun l m => l.1 ≠ m.1 :=
    (List.pairwise_map.1 h.links).filter _
  rw [successors, List.nodup_iff_pairwise_ne, List.pairwise_map]
  refine hlinks.imp_of_mem ?_
  intro l m hl hm hne hsame
  have hsource : l.1.1 = m.1.1 :=
    (of_decide_eq_true (List.mem_filter.1 hl).2).trans (of_decide_eq_true (List.mem_filter.1 hm).2).symm
  exact hne (Prod.ext hsource hsame)

/-! ### The run -/

/-- Nodes are finished or queued once they are ready, and each one is finished behind all that leads to it. -/
structure Draining (g : Graph) (queue done : List Id) : Prop where
  nodup : (done ++ queue).Nodup
  nodes : done ++ queue ⊆ g.nodes.keys
  queued : ∀ v ∈ queue, g.isReady done v = true
  complete : ∀ v ∈ g.nodes.keys, g.isReady done v = true → v ∈ done ++ queue
  behind : ∀ u v, g.Leads u v → v ∈ done → done.idxOf u < done.idxOf v

private theorem isReady_mono {done done' : List Id} (hsub : done ⊆ done') {v : Id} (h : g.isReady done v = true) :
    g.isReady done' v = true :=
  isReady_iff.2 fun u hu => hsub (isReady_iff.1 h u hu)

/-- The nodes that no link leads to are queued first. -/
theorem Proper.draining_start (h : g.Proper) : g.Draining (g.nodes.keys.filter (g.isReady [])) [] where
  nodup := h.nodes.filter _
  nodes _ hv := (List.mem_filter.1 hv).1
  queued _ hv := (List.mem_filter.1 hv).2
  complete _ hv hready := List.mem_filter.2 ⟨hv, hready⟩
  behind _ _ _ hv := absurd hv List.not_mem_nil

/-- Finishing the next node keeps all this: what it makes ready is neither finished nor queued before. -/
theorem Draining.step (hg : g.Proper) {u : Id} {queue done : List Id} (h : g.Draining (u :: queue) done) :
    g.Draining (queue ++ (g.successors u).filter (g.isReady (done ++ [u]))) (done ++ [u]) := by
  have hu : u ∉ done := fun hmem => (List.nodup_append.1 h.nodup).2.2 u hmem u List.mem_cons_self rfl
  have hsame : done ++ [u] ++ queue = done ++ u :: queue := by
    rw [List.append_assoc, List.singleton_append]
  have hold : ∀ v ∈ done ++ u :: queue, ¬ g.Leads u v := by
    intro v hv hlead
    rcases List.mem_append.1 hv with hv | hv
    · have hlt := (h.behind u v hlead hv).trans (List.idxOf_lt_length_of_mem hv)
      exact hu (List.idxOf_lt_length_iff.1 hlt)
    · exact hu (isReady_iff.1 (h.queued v hv) u hlead)
  constructor
  case nodup =>
    rw [← List.append_assoc, hsame, List.nodup_append]
    refine ⟨h.nodup, (hg.nodup_successors u).filter _, ?_⟩
    rintro v hv w hw rfl
    exact hold v hv (mem_successors.1 (List.mem_filter.1 hw).1)
  case nodes =>
    rw [← List.append_assoc, hsame]
    refine List.append_subset.2 ⟨h.nodes, ?_⟩
    intro v hv
    exact (hg.ends (mem_successors.1 (List.mem_filter.1 hv).1)).2
  case queued =>
    intro v hv
    rcases List.mem_append.1 hv with hv | hv
    · exact isReady_mono (List.subset_append_left _ _) (h.queued v (List.mem_cons_of_mem u hv))
    · exact (List.mem_filter.1 hv).2
  case complete =>
    intro v hv hready
    rw [← List.append_assoc, hsame, List.mem_append]
    by_cases hlead : g.Leads u v
    · exact Or.inr (List.mem_filter.2 ⟨mem_successors.2 hlead, hready⟩)
    · refine Or.inl (h.complete v hv (isReady_iff.2 fun w hw => ?_))
      refine (List.mem_append.1 (isReady_iff.1 hready w hw)).resolve_right fun hwu => hlead ?_
      rwa [List.mem_singleton.1 hwu] at hw
  case behind =>
    intro w v hlead hv
    have hw : w ∈ done → (done ++ [u]).idxOf w = done.idxOf w := List.idxOf_append_of_mem
    rcases List.mem_append.1 hv with hv | hv
    · have hlt := h.behind w v hlead hv
      have hmem := List.idxOf_lt_length_iff.1 (hlt.trans (List.idxOf_lt_length_of_mem hv))
      rwa [hw hmem, List.idxOf_append_of_mem hv]
    · obtain rfl := List.mem_singleton.1 hv
      have hmem := isReady_iff.1 (h.queued v List.mem_cons_self) w hlead
      have hlt := List.idxOf_lt_length_of_mem hmem
      rw [hw hmem, List.idxOf_append_of_notMem hu]
      omega

/-- A run ends when nothing is queued: there are no more nodes than steps. -/
private theorem Draining.run (hg : g.Proper) {n : Nat} {queue done : List Id} (h : g.Draining queue done)
    (hn : n + done.length = g.nodeCount) : g.Draining [] (g.drain n queue done) := by
  fun_induction drain g n queue done with
  | case1 done n u queue done' ih =>
    apply ih (h.step hg)
    simp only [done', List.length_append, List.length_singleton]
    omega
  | case2 n queue done hstop =>
    cases queue with
    | nil => exact h
    | cons u queue =>
      have hlen := (h.nodup.subperm h.nodes).length_le
      have hcount : g.nodes.keys.length = g.nodeCount := List.length_map _
      rw [List.length_append, List.length_cons, hcount] at hlen
      cases n with
      | zero => omega
      | succ n => exact absurd rfl (hstop n u queue rfl)

theorem Proper.draining_order (h : g.Proper) : g.Draining [] g.order :=
  h.draining_start.run h (Nat.add_zero _)

/-! ### Orders and cycles -/

theorem isAcyclic_iff_perm (hg : g.Proper) : g.isAcyclic = true ↔ g.order.Perm g.nodes.keys := by
  have hd := hg.draining_order
  have hnodup : g.order.Nodup := by simpa using hd.nodup
  have hsub : g.order ⊆ g.nodes.keys := by simpa using hd.nodes
  have hcount : g.nodes.keys.length = g.nodeCount := List.length_map _
  rw [isAcyclic, decide_eq_true_eq, ← hcount]
  exact ⟨fun hlen => (hnodup.subperm hsub).perm_of_length_le hlen.ge, List.Perm.length_eq⟩

/-- There is no way along links from a node to itself if and only if all nodes can be finished. -/
theorem isAcyclic_iff (hg : g.Proper) : g.isAcyclic = true ↔ ∀ u, ¬ Relation.TransGen g.Leads u u := by
  have hd := hg.draining_order
  rw [isAcyclic_iff_perm hg]
  constructor
  · intro hperm u hcycle
    have hlt : ∀ {v}, Relation.TransGen g.Leads u v → g.order.idxOf u < g.order.idxOf v := by
      intro v hway
      have hstep : ∀ {v w}, g.Leads v w → g.order.idxOf v < g.order.idxOf w := fun hlead =>
        hd.behind _ _ hlead (hperm.mem_iff.2 (hg.ends hlead).2)
      induction hway with
      | single hlead => exact hstep hlead
      | tail _ hlead ih => exact ih.trans (hstep hlead)
    exact Nat.lt_irrefl _ (hlt hcycle)
  · intro hacyclic
    -- the nodes are finitely many, so one can argue along the links from what leads to a node to the node
    let before : { u // u ∈ g.nodes.keys } → { u // u ∈ g.nodes.keys } → Prop :=
      fun u v => Relation.TransGen g.Leads u v
    have : IsTrans _ before := ⟨fun _ _ _ => Relation.TransGen.trans⟩
    have : Std.Irrefl before := ⟨fun u => hacyclic u⟩
    have hwf : WellFounded before := Finite.wellFounded_of_trans_of_irrefl before
    have hall : ∀ v : { u // u ∈ g.nodes.keys }, v.1 ∈ g.order := by
      intro v
      induction v using hwf.induction with
      | _ v ih =>
        have hready : g.isReady g.order v = true := isReady_iff.2 fun u hlead =>
          ih ⟨u, (hg.ends hlead).1⟩ (Relation.TransGen.single hlead)
        simpa using hd.complete v v.2 hready
    rw [List.perm_ext_iff_of_nodup (by simpa using hd.nodup) hg.nodes]
    intro v
    exact ⟨fun hv => hd.nodes (by simpa using hv), fun hv => hall ⟨v, hv⟩⟩

end DiagramText.Graph

namespace DiagramText

/-- A relation, edge or message between known elements leads from one to the other. -/
def Diagram.Leads (d : Diagram) (u v : Id) : Prop := ∃ t ∈ d.ties, t.within d.ids = true ∧ t.ends = (u, v)

/-- From some element a way along relations, edges or messages leads back to it. -/
def Diagram.IsCyclic (d : Diagram) : Prop := ∃ u, Relation.TransGen d.Leads u u

namespace Graph

variable {d : Diagram}

theorem leads_ofDiagram : (ofDiagram d).Leads = d.Leads := by
  funext u v
  have hlinks : (u, v) ∈ (ofDiagram d).links.keys ↔ (u, v) ∈ (d.written 0).map Tie.ends := mem_links_ofDiagram
  rw [Leads, Diagram.Leads, eq_iff_iff, hlinks, List.mem_map]
  simp only [(d.written_perm 0).mem_iff, List.mem_filter, and_assoc]

theorem proper_ofDiagram (d : Diagram) : (ofDiagram d).Proper where
  nodes := nodup_nodes_ofDiagram d
  links := nodup_links_ofDiagram d
  ends {u v} h := by
    rw [leads_ofDiagram] at h
    obtain ⟨t, -, hwithin, he⟩ := h
    rw [Tie.within, Bool.and_eq_true, List.contains_iff_mem, List.contains_iff_mem] at hwithin
    obtain ⟨rfl, rfl⟩ := Prod.mk.inj he
    exact ⟨mem_nodes_ofDiagram.2 hwithin.1, mem_nodes_ofDiagram.2 hwithin.2⟩

theorem isAcyclic_ofDiagram (d : Diagram) : (ofDiagram d).isAcyclic = false ↔ d.IsCyclic := by
  rw [← Bool.not_eq_true, isAcyclic_iff (proper_ofDiagram d), leads_ofDiagram]
  exact not_forall_not

/-- The elements of a diagram have a topological order unless a way along its relations, edges or messages leads from
some element back to it.  The order has each node once, with its label, and no link leads backwards in it. -/
theorem topologicalOrder?_ofDiagram (d : Diagram) :
    ((ofDiagram d).topologicalOrder? = none ↔ d.IsCyclic) ∧ ((ofDiagram d).isAcyclic = false ↔ d.IsCyclic) ∧
      (¬ d.IsCyclic → ∃ ids : List Id, (ofDiagram d).topologicalOrder? = some (ids.map (ofDiagram d).label) ∧
        ids.Perm (ofDiagram d).nodes.keys ∧
          ∀ u v, (u, v) ∈ (ofDiagram d).links.keys → ids.idxOf u < ids.idxOf v) := by
  have hcyclic := isAcyclic_ofDiagram d
  refine ⟨?_, hcyclic, ?_⟩
  · rw [← hcyclic, topologicalOrder?]
    split <;> simp_all
  · intro hnot
    have hacyclic : (ofDiagram d).isAcyclic = true := by
      rw [← Bool.not_eq_false, hcyclic]
      exact hnot
    have hg := proper_ofDiagram d
    have hperm := (isAcyclic_iff_perm hg).1 hacyclic
    refine ⟨(ofDiagram d).order, ?_, hperm, ?_⟩
    · rw [topologicalOrder?, if_pos hacyclic]
    · intro u v hlead
      exact hg.draining_order.behind u v hlead (hperm.mem_iff.2 (hg.ends hlead).2)

end Graph

end DiagramText

import DiagramText.Proofs.Flowchart.Parsed
import DiagramText.Proofs.Flowchart.Renaming
import DiagramText.Proofs.Report
import Mathlib.Data.List.Perm.Subperm

/-!
# Writing and reading what a text holds

The diagram of a text is written, read back and written again.  The second diagram is the first one and the second text
is the first one if and only if all labels are kept between their brackets (`read_write_iff_keeps`).  Not all labels of
a text are: a blank before a quote inside brackets makes one that is not (`read_write_unkept`).
-/

namespace DiagramText.Flowchart

/-! ### The canonical form of a tidy diagram -/

/-- Conditions that exclude one another split a list. -/
private theorem flatMap_filter_perm {α β : Type} {q : α → β → Bool} {l : List α} {xs : List β}
    (h : l.Pairwise fun a b => ∀ x ∈ xs, q a x = true → q b x = false) :
    (l.flatMap (fun a => xs.filter (q a)) ++ xs.filter fun x => !l.any (q · x)).Perm xs := by
  induction l generalizing xs with
  | nil => simp
  | cons a l ih =>
    obtain ⟨hhead, htail⟩ := List.pairwise_cons.1 h
    have hsplit : ∀ b ∈ l, xs.filter (q b) = (xs.filter (fun x => !q a x)).filter (q b) := by
      intro b hb
      rw [List.filter_filter]
      apply List.filter_congr
      intro x hx
      cases ha : q a x with
      | true => simp [hhead b hb x hx ha]
      | false => simp
    have hrest : xs.filter (fun x => !(a :: l).any (q · x)) =
        (xs.filter (fun x => !q a x)).filter (fun x => !l.any (q · x)) := by
      rw [List.filter_filter]
      apply List.filter_congr
      intro x _
      rw [List.any_cons, Bool.not_or, Bool.and_comm]
    have hrestPairwise : l.Pairwise fun a' b => ∀ x ∈ xs.filter (fun x => !q a x), q a' x = true → q b x = false :=
      htail.imp fun hab x hx => hab x (List.mem_of_mem_filter hx)
    have hperm := ih hrestPairwise
    rw [List.flatMap_cons, hrest, List.append_assoc, List.flatMap_congr hsplit]
    exact (hperm.append_left _).trans (List.filter_append_perm (q a) xs)

namespace Diagram.Tidy

variable {d : Diagram}

private theorem claims_eq (h : d.Tidy) {i : Nat} (hi : i < d.subgraphs.length) :
    d.claims i d.subgraphs[i] = d.subgraphs[i].members := by
  have hmembers := h.members
  rw [List.flatMap_def, List.nodup_flatten] at hmembers
  obtain ⟨hnodup, hpair⟩ := hmembers
  have hfirsts : Keyed.firsts (fun id : Id => id) d.subgraphs[i].members = d.subgraphs[i].members := by
    apply Keyed.firsts_of_nodup
    rw [List.map_id']
    exact hnodup _ (List.mem_map_of_mem (List.getElem_mem hi))
  rw [claims, hfirsts, List.filter_eq_self]
  intro id hid
  simp only [Bool.and_eq_true, Bool.not_eq_true', List.any_eq_false, List.contains_iff_mem, node?_isSome]
  refine ⟨h.known id (List.mem_flatMap.2 ⟨_, List.getElem_mem hi, hid⟩), ?_⟩
  intro g hg hmem
  obtain ⟨j, hj, rfl⟩ := List.mem_take_iff_getElem.1 hg
  have hne := List.pairwise_iff_getElem.1 hpair j i (by simp; omega) (by simpa using hi) (by omega)
  simp only [List.getElem_map] at hne
  exact hne hmem hid

theorem canonical_subgraphs (h : d.Tidy) : d.canonical.subgraphs = d.subgraphs := by
  rw [canonical]
  apply List.ext_getElem
  · simp
  · intro i hi hi'
    rw [List.getElem_mapIdx, h.claims_eq hi']

theorem canonical_nodes_perm (h : d.Tidy) : d.canonical.nodes.Perm d.nodes := by
  rw [canonical_nodes]
  have hsound := sound_arrange d
  rw [List.perm_ext_iff_of_nodup hsound.ids.of_map h.ids.of_map]
  intro n
  refine ⟨mem_nodes_of_arrange, ?_⟩
  intro hn
  obtain ⟨m, hm, hid⟩ := List.mem_map.1 (mem_ids_arrange.2 (List.mem_map_of_mem (f := Node.id) hn))
  rwa [← List.inj_on_of_nodup_map h.ids (mem_nodes_of_arrange hm) hn hid]

theorem canonical_edges_perm (h : d.Tidy) : d.canonical.edges.Perm d.edges := by
  have hresolves : ∀ e ∈ d.edges, d.resolves e = true := by
    intro e he
    obtain ⟨hsource, htarget⟩ := h.edges e he
    rw [resolves, Bool.and_eq_true, node?_isSome, node?_isSome]
    exact ⟨hsource, htarget⟩
  have houter : d.edges.filter (fun e => d.resolves e && !d.claimed.any e.within) =
      d.edges.filter fun e => !d.claimed.any fun ids => e.within ids := by
    apply List.filter_congr
    intro e he
    rw [hresolves e he, Bool.true_and]
  have hdisjoint : d.claimed.Pairwise fun ids ids' => ∀ e ∈ d.edges, e.within ids = true → e.within ids' = false := by
    refine (List.nodup_flatten.1 nodup_claimed).2.imp ?_
    intro ids ids' hne e _ hwithin
    rw [Bool.eq_false_iff]
    intro hwithin'
    simp only [Edge.within, Bool.and_eq_true, List.contains_iff_mem] at hwithin hwithin'
    exact hne hwithin.1 hwithin'.1
  have hnormal : d.edges.map Edge.normal = d.edges := by
    refine (List.map_congr_left ?_).trans (List.map_id _)
    intro e he
    rw [Edge.normal, (h.links e he).2]
    rfl
  rw [canonical, houter]
  exact ((flatMap_filter_perm (q := fun ids e => e.within ids) hdisjoint).map Edge.normal).trans (by rw [hnormal])

/-- The canonical form of a tidy diagram is what its chart says. -/
theorem canonical_eq_flat (h : d.Tidy) : d.canonical = d.arrange.flat := by
  have hedges : d.canonical.edges = d.arrange.allEdges := by
    rw [canonical_edges]
    refine (List.map_congr_left ?_).trans (List.map_id _)
    intro e he
    rw [Edge.normal, (h.links e (mem_edges_of_arrange he)).2]
    rfl
  exact Diagram.ext rfl canonical_nodes hedges Diagram.canonical_subgraphs

end Diagram.Tidy

/-! ### Labels that are kept -/

/-- The node without its position. -/
def Node.unplaced (n : Node) : Node := { n with position := {} }

/-- The diagrams are the same up to ids, positions, and the order of nodes and of edges. -/
def Diagram.Agrees (d d' : Diagram) : Prop :=
  ∃ f, d.Separates f ∧ d'.direction = d.direction ∧
    (d'.nodes.map Node.unplaced).Perm ((d.rename f).nodes.map Node.unplaced) ∧ d'.edges.Perm (d.rename f).edges ∧
      d'.subgraphs = (d.rename f).subgraphs

/-- All labels of the diagram are read back from their brackets. -/
structure Diagram.Keeps (d : Diagram) : Prop where
  nodes : ∀ n ∈ d.nodes, n.shape.Keeps n.label
  titles : ∀ g ∈ d.subgraphs, Shape.rectangle.Keeps g.label

theorem titleKept_of_keeps {label : Text} (hb : '\n' ∉ label) (h : Shape.rectangle.Keeps label) : TitleKept label where
  framed := by
    refine ⟨hb, ?_⟩
    intro f hf
    rw [Shape.readShape_of_keeps h hb] at hf
    cases hf
    rw [List.drop_length, kinds_nil]
  kept := by rw [(Shape.reread_eq_iff hb).2 h]

section

variable {d : Diagram}

theorem Diagram.Keeps.reread (h : d.Keeps) (hd : d.Tidy) : d.reread = d := by
  have hnodes : d.nodes.map Node.reread = d.nodes := by
    refine (List.map_congr_left ?_).trans (List.map_id _)
    intro n hn
    rw [Node.reread, (Shape.reread_eq_iff (hd.nodes n hn).line).2 (h.nodes n hn)]
    rfl
  rw [Diagram.reread, hnodes]

private theorem map_unplaced_placed (d : Diagram) : d.placed.nodes.map Node.unplaced = d.nodes.map Node.unplaced :=
  Keyed.map_mapIdx (f := fun i n => { n with position := d.direction.grid.position i }) (fun _ _ => rfl) d.nodes

/-- If all labels are kept, the diagram comes back and is written in the same way. -/
theorem read_write_of_keeps (hd : d.Tidy) (h : d.Keeps) (stack : Stack) (size : Int) :
    ∃ d', (read stack (d.write size)).outcome = .ok d' ∧ d.Agrees d' ∧ d'.write size = d.write size := by
  have hread := read_write_reread (fun n hn => Shape.framed_of_clear (hd.nodes n hn))
    (fun g hg => titleKept_of_keeps (hd.titles g hg) (h.titles g hg)) (fun e he => (hd.links e he).1) stack size
  obtain ⟨f, hf, hread⟩ := hread
  rw [h.reread hd] at hread
  refine ⟨_, hread, ⟨f, hf, rfl, ?_, ?_, ?_⟩, ?_⟩
  · rw [map_unplaced_placed]
    exact (hd.canonical_nodes_perm.map _).map _
  · exact hd.canonical_edges_perm.map _
  · show d.canonical.subgraphs.map _ = d.subgraphs.map _
    rw [hd.canonical_subgraphs]
  · rw [hd.canonical_eq_flat]
    refine write_placed_rename_flat (Diagram.sound_arrange d) (apart_arrange d) ?_ size
    intro i hi j hj
    exact hf i (Diagram.mem_ids_arrange.1 hi) j (Diagram.mem_ids_arrange.1 hj)

/-! ### Titles that are not kept -/

/-- A list has a property throughout, or there is a first element without it. -/
private theorem forall_or_exists_first {α : Type} {q : α → Prop} (l : List α) :
    (∀ x ∈ l, q x) ∨ ∃ before x behind, l = before ++ x :: behind ∧ (∀ y ∈ before, q y) ∧ ¬ q x := by
  induction l with
  | nil => exact Or.inl (by simp)
  | cons a l ih =>
    by_cases ha : q a
    · rcases ih with h | ⟨before, x, behind, rfl, hbefore, hx⟩
      · exact Or.inl (List.forall_mem_cons.2 ⟨ha, h⟩)
      · exact Or.inr ⟨a :: before, x, behind, rfl, List.forall_mem_cons.2 ⟨ha, hbefore⟩, hx⟩
    · exact Or.inr ⟨[], a, l, rfl, by simp, ha⟩

private theorem titles_nodes (names : Naming) (ns : List Node) :
    (ns.map (·.statement names)).filterMap Statement.title? = [] := by
  rw [List.filterMap_map, List.filterMap_eq_nil_iff]
  exact fun _ _ => rfl

private theorem titles_edges (names : Naming) (es : List (Edge Id)) :
    (es.map (·.statement names)).filterMap Statement.title? = [] := by
  rw [List.filterMap_map, List.filterMap_eq_nil_iff]
  exact fun _ _ => rfl

private theorem titles_blocks (names : Naming) (bs : List Block) :
    (bs.flatMap (Block.statements names)).filterMap Statement.title? = bs.map Block.label := by
  induction bs with
  | nil => rfl
  | cons b bs ih =>
    rw [List.flatMap_cons, List.filterMap_append, ih, Block.statements, List.filterMap_append, List.filterMap_append,
      List.filterMap_append, titles_nodes, titles_edges]
    rfl

/-- Where the first title that is not kept is written, another title is read. -/
private theorem exists_title (names : Naming) (b : Block) (hq : '"' ∈ b.label) (i : Nat) (rest : List Kind) :
    ∃ sts, (statements {} (unplaced (b.kinds names i ++ rest))).filterMap Statement.title? =
      (Shape.rectangle.reread b.label).2 :: sts := by
  obtain ⟨w, sh, ks, hkinds⟩ := exists_kinds_title hq i
  rw [Block.kinds, hkinds]
  simp only [List.cons_append, List.nil_append, unplaced_cons]
  rw [statements, if_pos (by rfl), statements, if_neg (by decide), List.filterMap_cons_some]
  · exact ⟨_, rfl⟩
  · rfl

private theorem titles_keep {a : Arrangement} (hs : a.Sound) (hw : a.Writable) {stack : Stack} {size : Int}
    {d : Diagram} (hread : (read stack (Text.unlines (a.lines size))).outcome = .ok d)
    (hlabels : d.subgraphs.map Subgraph.label = a.blocks.map Block.label) :
    ∀ b ∈ a.blocks, Shape.rectangle.Keeps b.label := by
  rcases forall_or_exists_first (q := fun b : Block => Shape.rectangle.Keeps b.label) a.blocks with
    hall | ⟨before, b, behind, hblocks, hbefore, hb⟩
  · exact hall
  have hmem : ∀ b' ∈ before ++ b :: behind, '\n' ∉ b'.label := by
    rw [← hblocks]
    exact hw.titles
  have hline : '\n' ∉ b.label := hmem b (by simp)
  have hq : '"' ∈ b.label := by
    by_cases hq : '"' ∈ b.label
    · exact hq
    · exact absurd (Or.inl hq) hb
  obtain ⟨-, -, hd⟩ := read_eq_ok_iff.1 hread
  have hreads : Reads (a.nodes.flatMap (·.kinds a.naming) ++ (before.mapIdx (Block.kinds a.naming)).flatten)
      (a.nodes.map (·.statement a.naming) ++ before.flatMap (Block.statements a.naming)) :=
    (reads_nodes a.naming a.nodes).append (reads_blocks a.naming fun b' hb' =>
      titleKept_of_keeps (hmem b' (by simp [hb'])) (hbefore b' hb'))
  obtain ⟨rest, hkinds⟩ : ∃ rest, a.kinds = (a.nodes.flatMap (·.kinds a.naming) ++
      (before.mapIdx (Block.kinds a.naming)).flatten) ++ (b.kinds a.naming before.length ++ rest) := by
    refine ⟨(behind.mapIdx fun i b' => b'.kinds a.naming (i + 1 + before.length)).flatten ++
      a.edges.flatMap (fun e => .newline :: e.kinds a.naming), ?_⟩
    rw [Arrangement.kinds, hblocks, List.mapIdx_append, List.mapIdx_cons, List.flatten_append, List.flatten_cons]
    simp only [List.append_assoc, Nat.zero_add]
  have hfresh : Fresh (b.kinds a.naming before.length ++ rest) := Fresh.line rfl _
  obtain ⟨sts, hsts⟩ := exists_title a.naming b hq before.length rest
  have hdocument : (document ⟨unplaced (kinds rule (Text.unlines (a.lines size))), {}⟩).2 =
      statements {} (unplaced a.kinds) := by
    rw [kinds_lines hs hw]
    rfl
  have htitles : d.subgraphs.map Subgraph.label =
      before.map Block.label ++ (Shape.rectangle.reread b.label).2 :: sts := by
    have hlabel : d.subgraphs.map Subgraph.label = (statements {} (unplaced a.kinds)).filterMap Statement.title? := by
      rw [← Draft.labels_ofStatements, ← hdocument, hd, Draft.toDiagram, List.map_map]
      rfl
    rw [hlabel, hkinds, hreads.statements _ hfresh, List.filterMap_append, List.filterMap_append, titles_nodes,
      titles_blocks, hsts, List.nil_append]
  rw [htitles, hblocks, List.map_append, List.map_cons] at hlabels
  have hsame := (List.cons.inj (List.append_cancel_left hlabels)).1
  exact absurd (Shape.keeps_of_title hline hsame) hb

/-! ### Labels that are not kept -/

/-- The numbers of a list added up. -/
private def total (l : List Nat) : Nat := l.foldr (· + ·) 0

private theorem total_perm {l m : List Nat} (h : l.Perm m) : total l = total m := by
  induction h with
  | nil => rfl
  | cons a _ ih => exact congrArg (a + ·) ih
  | swap a b l => exact Nat.add_left_comm b a (total l)
  | trans _ _ ih ih' => exact ih.trans ih'

/-- If no element grows, the total does not grow, and if it stays no element shrinks. -/
private theorem total_le_and_eq {α : Type} {l : List α} {g h : α → Nat} (hle : ∀ x ∈ l, g x ≤ h x) :
    total (l.map g) ≤ total (l.map h) ∧ (total (l.map g) = total (l.map h) → ∀ x ∈ l, g x = h x) := by
  induction l with
  | nil => exact ⟨Nat.le_refl _, by simp⟩
  | cons a l ih =>
    rw [List.forall_mem_cons] at hle
    obtain ⟨ha, hl⟩ := hle
    obtain ⟨htotal, heq⟩ := ih hl
    have hcons : ∀ k : α → Nat, total ((a :: l).map k) = k a + total (l.map k) := fun _ => rfl
    rw [hcons, hcons]
    refine ⟨by omega, ?_⟩
    intro hsame
    rw [List.forall_mem_cons]
    exact ⟨by omega, heq (by omega)⟩

private theorem nodes_keep (hd : d.Tidy) {d' : Diagram} {f : Id → Id}
    (hnodes : d'.nodes = (d.reread.canonical.rename f).placed.nodes) (hagrees : d.Agrees d') :
    ∀ n ∈ d.nodes, n.shape.Keeps n.label := by
  obtain ⟨g, -, -, hperm, -⟩ := hagrees
  -- the labels and shapes that are read are those that were written, in some order
  have hread : ((d.nodes.map Node.reread).map fun n => n.shape.weight n.label).Perm
      (d.nodes.map fun n => n.shape.weight n.label) := by
    have hcanonical : d.reread.canonical.nodes.Perm (d.nodes.map Node.reread) := by
      rw [Diagram.canonical_reread]
      exact hd.canonical_nodes_perm.map Node.reread
    have hweights := hperm.map fun n : Node => n.shape.weight n.label
    rw [hnodes, map_unplaced_placed, List.map_map, List.map_map, Diagram.rename, Diagram.rename, List.map_map,
      List.map_map] at hweights
    exact (hcanonical.map _).symm.trans hweights
  have hsum := total_perm hread
  rw [List.map_map] at hsum
  have hlighter : ∀ n ∈ d.nodes, n.reread.shape.weight n.reread.label ≤ n.shape.weight n.label := by
    intro n hn
    rcases Shape.reread_lt_or_eq n.shape (hd.nodes n hn).line with hlt | heq
    · exact Nat.le_of_lt hlt
    · exact Nat.le_of_eq (by rw [Node.reread, heq])
  intro n hn
  have hline := (hd.nodes n hn).line
  rw [← Shape.reread_eq_iff hline]
  rcases Shape.reread_lt_or_eq n.shape hline with hlt | heq
  · exact absurd ((total_le_and_eq hlighter).2 hsum n hn) (Nat.ne_of_lt hlt)
  · exact heq

/-- The diagram of a text comes back when it is written, and is written in the same way again, if and only if all its
labels are kept. -/
theorem read_write_iff_keeps {stack : Stack} {s : Text} (h : (read stack s).outcome = .ok d) (size : Int) :
    (∃ d', (read stack (d.write size)).outcome = .ok d' ∧ d.Agrees d' ∧ d'.write size = d.write size) ↔ d.Keeps := by
  have hd := tidy_of_read h
  refine ⟨?_, fun hkeeps => read_write_of_keeps hd hkeeps stack size⟩
  rintro ⟨d', hread, hagrees, -⟩
  have hframed : ∀ n ∈ d.nodes, Framed n.shape n.label := fun n hn => Shape.framed_of_clear (hd.nodes n hn)
  have hblocks : d.arrange.blocks.map Block.label = d.subgraphs.map Subgraph.label := by
    rw [← hd.canonical_subgraphs, Diagram.canonical_subgraphs, List.map_map]
    rfl
  have hwritable : d.arrange.Writable := by
    refine ⟨fun n hn => hframed n (Diagram.mem_nodes_of_arrange hn), ?_,
      fun e he => (hd.links e (Diagram.mem_edges_of_arrange he)).1⟩
    intro b hb
    obtain ⟨g, hg, hlabel⟩ := List.mem_map.1 (hblocks ▸ List.mem_map_of_mem (f := Block.label) hb)
    rw [← hlabel]
    exact hd.titles g hg
  have htitles : ∀ g ∈ d.subgraphs, Shape.rectangle.Keeps g.label := by
    have hlabels : d'.subgraphs.map Subgraph.label = d.arrange.blocks.map Block.label := by
      obtain ⟨g, -, -, -, -, hsubgraphs⟩ := hagrees
      rw [hsubgraphs, hblocks, Diagram.rename, List.map_map]
      rfl
    have hkept := titles_keep (Diagram.sound_arrange d) hwritable hread hlabels
    intro g hg
    obtain ⟨b, hb, hlabel⟩ := List.mem_map.1 (hblocks.symm ▸ List.mem_map_of_mem (f := Subgraph.label) hg)
    rw [← hlabel]
    exact hkept b hb
  obtain ⟨f, -, hread'⟩ := read_write_reread hframed (fun g hg => titleKept_of_keeps (hd.titles g hg) (htitles g hg))
    (fun e he => (hd.links e he).1) stack size
  rw [hread] at hread'
  exact ⟨nodes_keep hd (congrArg Diagram.nodes (Except.ok.inj hread')) hagrees, htitles⟩

end

/-- The diagram of a text with quotes in a label and in a title. -/
def visits : Diagram where
  direction := .leftToRight
  nodes := [
    { id := .minted 0, label := "say \"hello\" twice".toList, shape := .rounded, position := { x := 50, y := 50 } },
    { id := .minted 1, label := "B".toList, position := { x := 230, y := 50 } }]
  edges := [{ source := .minted 0, target := .minted 1, link := { label := some "then".toList } }]
  subgraphs := [{ label := "the \"other\" side".toList, members := [.minted 1] }]

/-- The text of these visits. -/
def visitsText : Text :=
  "flowchart LR\nA(say \"hello\" twice) -- then --> B\nsubgraph s[the \"other\" side]\nB\nend".toList

theorem read_write_visits : (read {} visitsText).outcome = .ok visits ∧
    ((∃ d', (read {} (visits.write 4)).outcome = .ok d' ∧ visits.Agrees d' ∧ d'.write 4 = visits.write 4) ↔
      visits.Keeps) := by
  have h := eq_ok_of_toOption (x := (read {} visitsText).outcome) (a := visits) (by decide +kernel)
  exact ⟨h, read_write_iff_keeps h 4⟩

/-- A label all in quotes behind a blank loses its quotes when it is read again. -/
theorem read_write_unkept : ¬ ∀ s d, (read {} s).outcome = .ok d → ∃ d', (read {} (d.write 4)).outcome = .ok d' ∧
    d.Agrees d' ∧ d'.write 4 = d.write 4 := by
  intro hall
  have hread := eq_ok_of_toOption (x := (read {} "flowchart TD\nA[ \"x\"]".toList).outcome)
    (a := ⟨.topDown, [⟨.minted 0, "\"x\"".toList, .rectangle, ⟨50, 50⟩⟩], [], []⟩) (by decide +kernel)
  have hagain := eq_ok_of_toOption (x := (read {} "flowchart TD\n    x[\"x\"]".toList).outcome)
    (a := ⟨.topDown, [⟨.minted 0, "x".toList, .rectangle, ⟨50, 50⟩⟩], [], []⟩) (by decide +kernel)
  have hwrite : Diagram.write 4 ⟨.topDown, [⟨.minted 0, "\"x\"".toList, .rectangle, ⟨50, 50⟩⟩], [], []⟩ =
      "flowchart TD\n    x[\"x\"]".toList := by decide +kernel
  obtain ⟨d', hd', -, hsame⟩ := hall _ _ hread
  rw [hwrite, hagain] at hd'
  cases hd'
  rw [hwrite] at hsame
  exact absurd hsame (by decide +kernel)

end DiagramText.Flowchart

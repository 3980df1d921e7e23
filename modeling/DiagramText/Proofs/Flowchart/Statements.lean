import DiagramText.Proofs.Flowchart.Lines
import DiagramText.Proofs.Flowchart.Places

/-!
# The statements of a chart

The tokens of each line of a chart read as a statement of their own (`Reads`): every line begins with a node, with
`subgraph` or with `end`, and none of these goes on with the line before.  So the statements of a chart follow its lines
(`document_kinds`), as long as its titles are read back (`TitleKept`).
-/

namespace DiagramText.Flowchart

/-- The title of a subgraph is read back from its brackets. -/
structure TitleKept (label : Text) : Prop where
  framed : Framed .rectangle label
  kept : (Shape.rectangle.reread label).2 = label

theorem titleKept_of_bare {label : Text} (hq : '"' ∉ label) (hb : '\n' ∉ label) : TitleKept label where
  framed := framed_of_bare .rectangle hq hb
  kept := by rw [Shape.reread_of_bare .rectangle hq hb]

/-! ### Tokens that read by themselves -/

/-- The tokens that begin a line of a chart. -/
def Kind.isStart : Kind → Bool
  | word _ | node _ _ _ | opening | closing => true
  | _ => false

/-- No tokens, or a line that does not go on with the one before. -/
inductive Fresh : List Kind → Prop
  | nil : Fresh []
  | line {k : Kind} (h : k.isStart = true) (ks : List Kind) : Fresh (.newline :: k :: ks)

theorem Fresh.append {ks ks' : List Kind} (h : Fresh ks) (h' : Fresh ks') : Fresh (ks ++ ks') := by
  cases h with
  | nil => exact h'
  | line hk r => exact Fresh.line hk (r ++ ks')

/-- Tokens that read as the statements, whatever begins on the next line. -/
structure Reads (ks : List Kind) (sts : List Statement) : Prop where
  fresh : Fresh ks
  statements : ∀ rest, Fresh rest → statements {} (unplaced (ks ++ rest)) = sts ++ statements {} (unplaced rest)

namespace Reads

theorem nil : Reads [] [] := ⟨Fresh.nil, fun _ _ => rfl⟩

theorem append {ks ks' : List Kind} {sts sts' : List Statement} (h : Reads ks sts) (h' : Reads ks' sts') :
    Reads (ks ++ ks') (sts ++ sts') := by
  refine ⟨h.fresh.append h'.fresh, ?_⟩
  intro rest hrest
  rw [List.append_assoc, h.statements _ (h'.fresh.append hrest), h'.statements rest hrest, List.append_assoc]

theorem flatten {kss : List (List Kind)} {stss : List (List Statement)} (h : List.Forall₂ Reads kss stss) :
    Reads kss.flatten stss.flatten := by
  induction h with
  | nil => exact nil
  | cons h _ ih => exact h.append ih

theorem flatMap {α : Type} {l : List α} {f : α → List Kind} {g : α → List Statement}
    (h : ∀ a ∈ l, Reads (f a) (g a)) : Reads (l.flatMap f) (l.flatMap g) := by
  induction l with
  | nil => exact nil
  | cons a l ih => exact (h a (by simp)).append (ih fun b hb => h b (by simp [hb]))

end Reads

/-- Behind a node, a line break and a new line, no link is read. -/
private theorem readTail_of_fresh {ks : List Kind} (h : Fresh ks) :
    readTail (unplaced ks) = ⟨[], none, skipBreaks (unplaced ks)⟩ := by
  apply readTail_nil
  intro symbol l place us hskip
  cases h with
  | nil => cases hskip
  | @line k hk r =>
    cases k with
    | link symbol' l' => cases hk
    | newline => cases hk
    | comment text => cases hk
    | _ => cases hskip

theorem reads_node (w : Text) (sh : Shape) (label : Text) :
    Reads [.newline, .node w sh label] [.chain ⟨w, some (sh, label)⟩ [] none] := by
  refine ⟨Fresh.line rfl [], ?_⟩
  intro rest hrest
  have hread : readStatement {} ⟨.node w sh label, {}⟩ (unplaced rest) =
      (.chain ⟨w, some (sh, label)⟩ [] none, skipBreaks (unplaced rest)) := by
    simp only [readStatement, Kind.mention?, readTail_of_fresh hrest]
  simp only [List.cons_append, List.nil_append, unplaced_cons]
  rw [statements_break {} rfl, statements_start {} rfl, hread, statements_skipBreaks]

theorem reads_edge (u symbol w : Text) (l : Link) :
    Reads [.newline, .word u, .link symbol l, .word w] [.chain ⟨u, none⟩ [(l, ⟨w, none⟩)] none] := by
  refine ⟨Fresh.line rfl _, ?_⟩
  intro rest hrest
  have htail : readTail (unplaced (.link symbol l :: .word w :: rest)) =
      ⟨[(l, ⟨w, none⟩)], none, skipBreaks (unplaced rest)⟩ := by
    have hlink : skipBreaks (unplaced (.link symbol l :: .word w :: rest)) =
        ⟨.link symbol l, {}⟩ :: unplaced (.word w :: rest) := rfl
    have hword : skipBreaks (unplaced (.word w :: rest)) = ⟨.word w, {}⟩ :: unplaced rest := rfl
    rw [readTail_cons hlink hword rfl, readTail_of_fresh hrest]
  have hread : readStatement {} ⟨.word u, {}⟩ (unplaced (.link symbol l :: .word w :: rest)) =
      (.chain ⟨u, none⟩ [(l, ⟨w, none⟩)] none, skipBreaks (unplaced rest)) := by
    simp only [readStatement, Kind.mention?, htail]
  simp only [List.cons_append, List.nil_append]
  rw [unplaced_cons, statements_break {} rfl, unplaced_cons, statements_start {} rfl, hread, statements_skipBreaks]

theorem reads_closing : Reads [.newline, .closing] [.closing {}] := by
  refine ⟨Fresh.line rfl [], ?_⟩
  intro rest _
  simp only [List.cons_append, List.nil_append, unplaced_cons]
  rw [statements_break {} rfl, statements_start {} rfl]
  rfl

/-! ### Titles -/

private theorem readWords_words (ws : List Text) {rest : List Kind} (h : ∀ w r, rest ≠ .word w :: r) :
    readTitle.readWords (unplaced (ws.map .word ++ rest)) = (ws, unplaced rest) := by
  induction ws with
  | nil =>
    cases rest with
    | nil => rfl
    | cons k r =>
      cases k with
      | word w => exact absurd rfl (h w r)
      | _ => rfl
  | cons w ws ih =>
    rw [List.map_cons, List.cons_append, unplaced_cons, readTitle.readWords, ih]

/-- The title that is read at the end of its line. -/
private theorem readTitle_kinds {label : Text} (h : TitleKept label) (i : Nat) {rest : List Kind}
    (hrest : rest = [] ∨ ∃ r, rest = .newline :: r) :
    readTitle (unplaced (kinds rule (formatTitle i label) ++ rest)) = (label, unplaced rest) := by
  rw [kinds_title h.framed]
  unfold titleKinds
  split
  · rename_i hbare
    have hstop : ∀ w r, rest ≠ .word w :: r := by
      intro w r
      rcases hrest with rfl | ⟨r', rfl⟩ <;> simp
    have hwords := readWords_words (label.splitOn ' ') hstop
    obtain ⟨w, ws, hws⟩ : ∃ w ws, label.splitOn ' ' = w :: ws :=
      List.exists_cons_of_ne_nil (List.splitOn_ne_nil _ _)
    rw [hws, List.map_cons, List.cons_append, unplaced_cons] at hwords ⊢
    simp only [readTitle, hwords]
    rw [← hws, Text.unwords, List.intercalate_splitOn]
  · rw [List.cons_append, List.nil_append, unplaced_cons]
    simp only [readTitle, h.kept]

theorem reads_opening {label : Text} (h : TitleKept label) (i : Nat) (d : Option Direction) :
    Reads ([.newline, .opening] ++ kinds rule (formatTitle i label) ++ directionKinds d) [.opening label d {}] := by
  refine ⟨Fresh.line rfl _, ?_⟩
  intro rest hrest
  obtain ⟨ts, hinner, hts⟩ : ∃ ts, readInnerDirection (unplaced (directionKinds d ++ rest)) = (d, ts) ∧
      statements {} ts = statements {} (unplaced rest) := by
    cases d with
    | some d => exact ⟨unplaced rest, rfl, rfl⟩
    | none =>
      refine ⟨skipBreaks (unplaced rest), ?_, statements_skipBreaks {} _⟩
      cases hrest with
      | nil => rfl
      | @line k hk r =>
        cases k with
        | keyword k => cases hk
        | newline => cases hk
        | comment text => cases hk
        | _ => rfl
  have hline : directionKinds d ++ rest = [] ∨ ∃ r, directionKinds d ++ rest = .newline :: r := by
    cases d with
    | some d => exact Or.inr ⟨_, rfl⟩
    | none =>
      cases hrest with
      | nil => exact Or.inl rfl
      | line hk r => exact Or.inr ⟨_, rfl⟩
  have hread : readStatement {} ⟨.opening, {}⟩
        (unplaced (kinds rule (formatTitle i label) ++ (directionKinds d ++ rest))) =
      (.opening label d {}, ts) := by
    simp only [readStatement, Kind.mention?, readTitle_kinds h i hline, hinner, startOf_unplaced]
  simp only [List.cons_append, List.nil_append, List.append_assoc]
  rw [unplaced_cons, statements_break {} rfl, unplaced_cons, statements_start {} rfl, hread, hts]

/-! ### The whole chart -/

/-- The statement of a node: it is mentioned with its shape and label as they are read again. -/
def Node.statement (names : Naming) (n : Node) : Statement :=
  .chain ⟨names.name n.id, some (n.reread.shape, n.reread.label)⟩ [] none

/-- The statement of an edge. -/
def Edge.statement (names : Naming) (e : Edge Id) : Statement :=
  .chain ⟨names.name e.source, none⟩ [(e.link.normal, ⟨names.name e.target, none⟩)] none

/-- The statements of a block. -/
def Block.statements (names : Naming) (b : Block) : List Statement :=
  [.opening b.label b.direction {}] ++ b.nodes.map (·.statement names) ++ b.edges.map (·.statement names) ++
    [.closing {}]

/-- The statements of a chart. -/
def Arrangement.statements (a : Arrangement) : List Statement :=
  a.nodes.map (·.statement a.naming) ++ a.blocks.flatMap (Block.statements a.naming) ++
    a.edges.map (·.statement a.naming)

private theorem reads_map {α : Type} {l : List α} {f : α → List Kind} {g : α → Statement}
    (h : ∀ a ∈ l, Reads (f a) [g a]) : Reads (l.flatMap f) (l.map g) := by
  have hmap : l.map g = l.flatMap fun a => [g a] := by
    rw [← List.flatMap_singleton' (l.map g), List.flatMap_map]
  rw [hmap]
  exact Reads.flatMap h

theorem reads_nodes (names : Naming) (ns : List Node) :
    Reads (ns.flatMap (·.kinds names)) (ns.map (·.statement names)) :=
  reads_map fun n _ => reads_node (names.name n.id) n.reread.shape n.reread.label

theorem reads_edges (names : Naming) (es : List (Edge Id)) :
    Reads (es.flatMap fun e => .newline :: e.kinds names) (es.map (·.statement names)) :=
  reads_map fun e _ => reads_edge (names.name e.source) e.link.format (names.name e.target) e.link.normal

theorem reads_block (names : Naming) (i : Nat) {b : Block} (h : TitleKept b.label) :
    Reads (b.kinds names i) (b.statements names) := by
  have hhead := reads_opening h i b.direction
  exact ((hhead.append (reads_nodes names b.nodes)).append (reads_edges names b.edges)).append reads_closing

theorem reads_blocks (names : Naming) {bs : List Block} (h : ∀ b ∈ bs, TitleKept b.label) :
    Reads (bs.mapIdx (Block.kinds names)).flatten (bs.flatMap (Block.statements names)) := by
  rw [List.flatMap_def]
  apply Reads.flatten
  rw [List.forall₂_iff_get]
  refine ⟨by simp, ?_⟩
  intro i hi hi'
  rw [List.length_mapIdx] at hi
  simp only [List.get_eq_getElem, List.getElem_mapIdx, List.getElem_map]
  exact reads_block names i (h _ (List.getElem_mem hi))

/-- The statements of a chart whose titles are read back. -/
theorem document_kinds {a : Arrangement} (h : ∀ b ∈ a.blocks, TitleKept b.label) :
    document ⟨unplaced (.keyword .flowchart :: .direction a.direction :: a.kinds), {}⟩ =
      (a.direction, a.statements) := by
  have hreads : Reads a.kinds a.statements :=
    ((reads_nodes a.naming a.nodes).append (reads_blocks a.naming h)).append (reads_edges a.naming a.edges)
  have hall := hreads.statements [] Fresh.nil
  have hnil : statements {} (unplaced []) = [] := by rw [unplaced_nil, statements]
  rw [List.append_nil, hnil, List.append_nil] at hall
  rw [← hall]
  rfl

theorem errors_statements (a : Arrangement) : ∀ st ∈ a.statements, st.errors = [] := by
  have hnode : ∀ ns : List Node, ∀ st ∈ ns.map (·.statement a.naming), st.errors = [] := by
    intro ns st hst
    obtain ⟨n, -, rfl⟩ := List.mem_map.1 hst
    rfl
  have hedge : ∀ es : List (Edge Id), ∀ st ∈ es.map (·.statement a.naming), st.errors = [] := by
    intro es st hst
    obtain ⟨e, -, rfl⟩ := List.mem_map.1 hst
    rfl
  intro st hst
  simp only [Arrangement.statements, List.mem_append, List.mem_flatMap, Block.statements, List.mem_singleton] at hst
  rcases hst with (hst | ⟨b, -, ((rfl | hst) | hst) | rfl⟩) | hst
  · exact hnode _ st hst
  · rfl
  · exact hnode _ st hst
  · exact hedge _ st hst
  · rfl
  · exact hedge _ st hst

/-- In a chart no more than one subgraph is open at once. -/
theorem deepest_statements (a : Arrangement) : Depth.deepest Statement.turn 0 a.statements ≤ 1 := by
  have hnodes : ∀ ns : List Node, ∀ st ∈ ns.map (·.statement a.naming), st.turn = .level := by
    intro ns st hst
    obtain ⟨n, -, rfl⟩ := List.mem_map.1 hst
    rfl
  have hedges : ∀ es : List (Edge Id), ∀ st ∈ es.map (·.statement a.naming), st.turn = .level := by
    intro es st hst
    obtain ⟨e, -, rfl⟩ := List.mem_map.1 hst
    rfl
  have hblock : ∀ b : Block, Depth.Closed Statement.turn 1 (b.statements a.naming) := by
    intro b
    have hinner : ∀ st ∈ b.nodes.map (·.statement a.naming) ++ b.edges.map (·.statement a.naming),
        st.turn = .level := by
      intro st hst
      exact (List.mem_append.1 hst).elim (hnodes _ st) (hedges _ st)
    exact .of_pair (o := .opening b.label b.direction {}) (c := .closing {}) rfl rfl hinner
  have hblocks : Depth.Closed Statement.turn 1 (a.blocks.flatMap (Block.statements a.naming)) :=
    .flatMap fun b _ => hblock b
  exact (((Depth.Closed.of_level (hnodes a.nodes)).append hblocks).append (.of_level (hedges a.edges))).fits

end DiagramText.Flowchart

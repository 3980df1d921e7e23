import DiagramText.Flowchart.Writer
import DiagramText.Proofs.Flowchart.Lexing
import DiagramText.Proofs.Flowchart.Naming

/-!
# The lines of flowchart text

What the lines of an arrangement are cut into.  The text of a node is read again as a shape and a label
(`Shape.reread`), and if nothing but that is read there (`Framed`), its line is one token (`kinds_node_line`).  The
tokens of a whole chart follow its lines (`kinds_lines`).
-/

namespace DiagramText.Flowchart

/-! ### Labels in their brackets -/

/-- The shape and the label that are read where a label is written between the brackets of a shape. -/
def Shape.reread (sh : Shape) (label : Text) : Shape × Text :=
  match readShape (sh.wrap label) with
  | some f => (f.shape, f.label)
  | none => (sh, label)

/-- The label is written on one line, and no token follows its closing bracket. -/
structure Framed (sh : Shape) (label : Text) : Prop where
  line : '\n' ∉ label
  alone : ∀ f, readShape (sh.wrap label) = some f → kinds rule ((sh.wrap label).drop f.length) = []

/-- The node as it is read again. -/
def Node.reread (n : Node) : Node :=
  { n with shape := (n.shape.reread n.label).1, label := (n.shape.reread n.label).2 }

theorem Shape.reread_of_bare (sh : Shape) {label : Text} (hq : '"' ∉ label) (hb : '\n' ∉ label) :
    sh.reread label = (sh, label) := by
  rw [Shape.reread, readShape_wrap sh hq hb]

theorem framed_of_bare (sh : Shape) {label : Text} (hq : '"' ∉ label) (hb : '\n' ∉ label) : Framed sh label where
  line := hb
  alone f hf := by
    rw [readShape_wrap sh hq hb] at hf
    cases hf
    rw [List.drop_length, kinds_nil]

/-- A text that can name a node. -/
def IsName (w : Text) : Prop := Text.isWord w = true ∧ w ∉ reserved

private theorem kinds_wrap_cons (sh : Shape) (label : Text) {w : Text} (hw : IsName w) :
    ∃ f, readShape (sh.wrap label) = some f ∧ kinds rule (w ++ sh.wrap label) =
      .node w (sh.reread label).1 (sh.reread label).2 :: kinds rule ((sh.wrap label).drop f.length) := by
  obtain ⟨f, hf⟩ := exists_readShape_wrap sh label
  refine ⟨f, hf, ?_⟩
  rw [kinds_node hw.1 (ofReserved?_of_not_mem hw.2) hf, Shape.reread, hf]

theorem kinds_wrap {sh : Shape} {label w : Text} (h : Framed sh label) (hw : IsName w) :
    kinds rule (w ++ sh.wrap label) = [.node w (sh.reread label).1 (sh.reread label).2] := by
  obtain ⟨f, hf, hkinds⟩ := kinds_wrap_cons sh label hw
  rw [hkinds, h.alone f hf]

/-! ### The tokens of a line -/

private theorem kinds_space (r : Text) : kinds rule (' ' :: r) = kinds rule r := kinds_gap rule (by decide) r

theorem kinds_node_line {names : Naming} {n : Node} (hw : IsName (names.name n.id)) (h : Framed n.shape n.label) :
    kinds rule (n.line names) = [.node (names.name n.id) n.reread.shape n.reread.label] := by
  have hline : n.line names = names.name n.id ++ n.shape.wrap n.label := by
    simp [Node.line, Shape.wrap]
  rw [hline, kinds_wrap h hw]
  rfl

private theorem kinds_last_word {w : Text} (hw : IsName w) :
    kinds rule w = [.word w] := by
  have h : kinds rule (w ++ []) = .word w :: kinds rule [] :=
    kinds_word hw.1 (ofReserved?_of_not_mem hw.2) (by simp) (by simp)
  rwa [List.append_nil, kinds_nil] at h

/-- The tokens of an edge. -/
def Edge.kinds (names : Naming) (e : Edge Id) : List Kind :=
  [.word (names.name e.source), .link e.link.format e.link.normal, .word (names.name e.target)]

private theorem kinds_link {l : Link} (hl : l.Writable) {rest : Text}
    (hr : ∀ c ∈ rest.head?, Text.isWordStart c = true) :
    kinds rule (l.format ++ ' ' :: rest) = .link l.format l.normal :: kinds rule (' ' :: rest) := by
  have hname : ∀ c ∈ rest.head?, Text.isSpace c = false ∧ c ≠ '|' := by
    intro c hc
    have hgap := Text.isGap_eq_false_of_isWordStart (hr c hc)
    simp only [Text.isGap, Bool.or_eq_false_iff] at hgap
    refine ⟨hgap.1, ?_⟩
    rintro rfl
    exact absurd (hr _ hc) (by decide)
  have hread := readLink_format hl hname
  obtain ⟨c, t, hct, hc⟩ := format_eq_cons l
  rw [hct] at hread ⊢
  have hchar : ∀ d ∈ ['-', '=', '~'], Text.isGap d = false ∧ d ≠ '\n' ∧ d ≠ '%' := Text.forall_of_all (by decide)
  obtain ⟨hgap, hbreak, hpercent⟩ := hchar c hc
  rw [List.cons_append] at hread ⊢
  apply kinds_found hgap
  unfold rule
  rw [if_neg hbreak, if_neg fun h => hpercent h.1, hread]
  simp

theorem kinds_edge_line {names : Naming} {e : Edge Id}
    (hs : IsName (names.name e.source)) (ht : IsName (names.name e.target)) (hl : e.link.Writable) :
    kinds rule (e.line names) = e.kinds names := by
  have hstart : ∀ c ∈ (names.name e.target).head?, Text.isWordStart c = true := by
    intro c hc
    cases hw : names.name e.target with
    | nil => rw [hw] at hc; cases hc
    | cons d w =>
      have hword := ht.1
      rw [hw] at hc hword
      cases hc
      simp only [Text.isWord, Bool.and_eq_true] at hword
      exact hword.1
  have hbracket : ∀ c ∈ ((' ' :: (e.link.format ++ ' ' :: names.name e.target)).dropWhile Text.isSpace).head?,
      isBracket c = false := by
    intro c hc
    obtain ⟨d, t, hdt, hd⟩ := format_eq_cons e.link
    have hchar : ∀ b ∈ ['-', '=', '~'], Text.isSpace b = false ∧ isBracket b = false :=
      Text.forall_of_all (by decide)
    rw [List.dropWhile_cons, if_pos (by decide), hdt, List.cons_append, List.dropWhile_cons,
      if_neg (by simp [(hchar d hd).1])] at hc
    cases hc
    exact (hchar _ hd).2
  have hline : e.line names = names.name e.source ++ ' ' :: (e.link.format ++ ' ' :: names.name e.target) := by
    simp [Edge.line]
  rw [hline, kinds_word hs.1 (ofReserved?_of_not_mem hs.2) (by simp [Text.isSpace]) hbracket, kinds_space,
    kinds_link hl hstart, kinds_space, kinds_last_word ht]
  rfl

/-! ### Titles -/

private theorem isName_of_bareTitle {label : Text} (h : isBareTitle label = true) :
    ∀ w ∈ label.splitOn ' ', IsName w := by
  simp only [isBareTitle, List.all_eq_true, Bool.and_eq_true, Bool.not_eq_true', List.contains_eq_mem,
    decide_eq_false_iff_not] at h
  exact h

/-- The name that stands before a title in brackets. -/
private theorem isName_titleName (i : Nat) : IsName ("sg_".toList ++ Text.ofNat i) := by
  refine ⟨?_, fun h => underscore_not_mem_reserved h (by simp)⟩
  rw [Text.isWord_iff]
  refine ⟨by simp, ?_, by simp⟩
  intro c hc
  rcases List.mem_append.1 hc with hc | hc
  · have hall : ∀ c ∈ "sg_".toList, Text.isWordChar c = true := Text.forall_of_all (by decide)
    exact hall c hc
  · exact Text.isWordChar_of_mem_ofNat hc

private theorem kinds_words {ws : List Text} (h : ∀ w ∈ ws, IsName w) :
    kinds rule (Text.unwords ws) = ws.map .word := by
  cases ws with
  | nil => exact kinds_nil rule
  | cons w ws =>
    rw [Text.unwords_cons]
    induction ws generalizing w with
    | nil =>
      rw [List.flatMap_nil, List.append_nil, kinds_last_word (h w (by simp))]
      rfl
    | cons v ws ih =>
      obtain ⟨hw, hr⟩ := h w (by simp)
      obtain ⟨hv, -⟩ := h v (by simp)
      have hspace : ∀ c ∈ ((' ' :: (v ++ ws.flatMap (' ' :: ·))).dropWhile Text.isSpace).head?,
          isBracket c = false := by
        intro c hc
        cases v with
        | nil => cases hv
        | cons d v =>
          simp only [Text.isWord, Bool.and_eq_true] at hv
          have hd := Text.isGap_eq_false_of_isWordStart hv.1
          simp only [Text.isGap, Bool.or_eq_false_iff] at hd
          rw [List.dropWhile_cons, if_pos (by decide), List.cons_append, List.dropWhile_cons,
            if_neg (by simp [hd.1])] at hc
          cases hc
          exact isBracket_of_isWordStart hv.1
      rw [List.flatMap_cons, List.cons_append,
        kinds_word hw (ofReserved?_of_not_mem hr) (by simp [Text.isSpace]) hspace, kinds_space,
        ih v fun x hx => h x (by simp [List.mem_cons.1 hx])]
      rfl

/-- The tokens of a title. -/
def titleKinds (i : Nat) (label : Text) : List Kind :=
  if isBareTitle label then (label.splitOn ' ').map .word
  else [.node ("sg_".toList ++ Text.ofNat i) (Shape.rectangle.reread label).1 (Shape.rectangle.reread label).2]

private theorem formatTitle_wrap {label : Text} (h : ¬ isBareTitle label = true) (i : Nat) :
    formatTitle i label = ("sg_".toList ++ Text.ofNat i) ++ Shape.rectangle.wrap label := by
  rw [formatTitle, if_neg h]
  simp [Shape.wrap, Shape.opener, Shape.closer]

theorem kinds_title {label : Text} (h : Framed .rectangle label) (i : Nat) :
    kinds rule (formatTitle i label) = titleKinds i label := by
  by_cases hbare : isBareTitle label = true
  · have hwords := kinds_words (isName_of_bareTitle hbare)
    rw [Text.unwords, List.intercalate_splitOn] at hwords
    rwa [formatTitle, if_pos hbare, titleKinds, if_pos hbare]
  · rw [formatTitle_wrap hbare, titleKinds, if_neg hbare, kinds_wrap h (isName_titleName i)]

/-- A title with a quote stands between brackets, and what is read there comes first. -/
theorem exists_kinds_title {label : Text} (hq : '"' ∈ label) (i : Nat) :
    ∃ w sh ks, kinds rule (formatTitle i label) = .node w sh (Shape.rectangle.reread label).2 :: ks := by
  have hbare : ¬ isBareTitle label = true := by
    intro h
    have hwords : Text.unwords (label.splitOn ' ') = label := by
      rw [Text.unwords, List.intercalate_splitOn]
    rw [← hwords] at hq
    exact Text.not_mem_unwords (by decide)
      (fun w hw => Text.quote_not_mem_of_isWord (isName_of_bareTitle h w hw).1) hq
  obtain ⟨f, -, hkinds⟩ := kinds_wrap_cons .rectangle label (isName_titleName i)
  rw [formatTitle_wrap hbare, hkinds]
  exact ⟨_, _, _, rfl⟩

/-! ### The tokens of a chart -/

/-- The token of a node, and the line break before it. -/
def Node.kinds (names : Naming) (n : Node) : List Kind :=
  [.newline, .node (names.name n.id) n.reread.shape n.reread.label]

/-- The tokens of a direction, and the line break before them. -/
def directionKinds (d : Option Direction) : List Kind :=
  d.toList.flatMap fun d => [.newline, .keyword .direction, .direction d]

/-- The tokens of the block number `i`, each line with the break before it. -/
def Block.kinds (names : Naming) (i : Nat) (b : Block) : List Kind :=
  ([.newline, .opening] ++ DiagramText.kinds rule (formatTitle i b.label) ++ directionKinds b.direction) ++
    b.nodes.flatMap (·.kinds names) ++ b.edges.flatMap (fun e => .newline :: e.kinds names) ++ [.newline, .closing]

/-- The tokens behind the header of a chart. -/
def Arrangement.kinds (a : Arrangement) : List Kind :=
  a.nodes.flatMap (·.kinds a.naming) ++ (a.blocks.mapIdx (Block.kinds a.naming)).flatten ++
    a.edges.flatMap (fun e => .newline :: e.kinds a.naming)

/-- The edges in the order in which they are written. -/
def Arrangement.allEdges (a : Arrangement) : List (Edge Id) := a.blocks.flatMap Block.edges ++ a.edges

/-- Every id is the id of one node, an edge inside a block joins nodes of the block, and every other edge joins nodes of
the chart. -/
structure Arrangement.Sound (a : Arrangement) : Prop where
  ids : (a.allNodes.map Node.id).Nodup
  inner : ∀ b ∈ a.blocks, ∀ e ∈ b.edges, e.source ∈ b.nodes.map Node.id ∧ e.target ∈ b.nodes.map Node.id
  outer : ∀ e ∈ a.edges, e.source ∈ a.allNodes.map Node.id ∧ e.target ∈ a.allNodes.map Node.id

/-- Every label can be written: those of nodes between brackets, those of edges as they are, and titles on one line. -/
structure Arrangement.Writable (a : Arrangement) : Prop where
  nodes : ∀ n ∈ a.allNodes, Framed n.shape n.label
  titles : ∀ b ∈ a.blocks, '\n' ∉ b.label
  edges : ∀ e ∈ a.allEdges, e.link.Writable

/-! ### Names in a chart -/

theorem Arrangement.naming_eq_assignAll (a : Arrangement) :
    a.naming = Naming.assignAll [] (a.allNodes.map fun n => (n.id, n.label)) := by
  rw [Naming.assignAll, List.foldl_map]
  rfl

theorem Arrangement.proper_naming (a : Arrangement) : a.naming.Proper := by
  rw [a.naming_eq_assignAll]
  exact Naming.Proper.nil.assignAll _

theorem Arrangement.mem_keys_naming {a : Arrangement} {id : Id} :
    id ∈ a.naming.keys ↔ id ∈ a.allNodes.map Node.id := by
  rw [a.naming_eq_assignAll, Naming.mem_keys_assignAll, List.map_map]
  exact or_iff_right List.not_mem_nil

theorem Arrangement.isName_name {a : Arrangement} {id : Id} (h : id ∈ a.allNodes.map Node.id) :
    IsName (a.naming.name id) :=
  a.proper_naming.words _ (Naming.get?_name (Arrangement.mem_keys_naming.2 h)).2

theorem Arrangement.name_inj {a : Arrangement} {i j : Id} (hi : i ∈ a.allNodes.map Node.id)
    (hj : j ∈ a.allNodes.map Node.id) (h : a.naming.name i = a.naming.name j) : i = j :=
  a.proper_naming.name_inj (Arrangement.mem_keys_naming.2 hi) (Arrangement.mem_keys_naming.2 hj) h

/-- Every edge joins nodes of the chart. -/
theorem Arrangement.Sound.ends {a : Arrangement} (h : a.Sound) {e : Edge Id} (he : e ∈ a.allEdges) :
    e.source ∈ a.allNodes.map Node.id ∧ e.target ∈ a.allNodes.map Node.id := by
  rcases List.mem_append.1 he with he | he
  · obtain ⟨b, hb, he⟩ := List.mem_flatMap.1 he
    have hsub : ∀ i ∈ b.nodes.map Node.id, i ∈ a.allNodes.map Node.id := by
      intro i hi
      obtain ⟨n, hn, rfl⟩ := List.mem_map.1 hi
      exact List.mem_map_of_mem (List.mem_append_right _ (List.mem_flatMap.2 ⟨b, hb, hn⟩))
    obtain ⟨hs, ht⟩ := h.inner b hb e he
    exact ⟨hsub _ hs, hsub _ ht⟩
  · exact h.outer e he

/-! ### No breaks inside lines -/

private theorem break_not_mem_format {l : Link} (h : l.Writable) : '\n' ∉ l.format := by
  have hsymbol := l.type.break_not_mem_symbol
  unfold Link.format
  split
  · exact hsymbol
  · exact hsymbol
  · rename_i c r hlabel
    obtain ⟨-, hbreak, -⟩ := h (c :: r) hlabel (by simp)
    dsimp only
    split
    · rename_i form hform
      obtain ⟨hopener, hcloser, -, -⟩ := LinkType.break_not_mem_inline hform
      split
      · simpa [hopener, hcloser] using hbreak
      · simpa [hsymbol] using hbreak
    · simpa [hsymbol] using hbreak

private theorem break_not_mem_node_line {names : Naming} {n : Node} (hw : IsName (names.name n.id))
    (h : Framed n.shape n.label) : '\n' ∉ n.line names := by
  have hname := Text.break_not_mem_of_isWord hw.1
  have hwrap := break_not_mem_wrap n.shape h.line
  simp only [Shape.wrap, List.mem_append, not_or] at hwrap
  simp [Node.line, hname, hwrap]

private theorem break_not_mem_edge_line {names : Naming} {e : Edge Id} (hs : IsName (names.name e.source))
    (ht : IsName (names.name e.target)) (hl : e.link.Writable) : '\n' ∉ e.line names := by
  have hsource := Text.break_not_mem_of_isWord hs.1
  have htarget := Text.break_not_mem_of_isWord ht.1
  have hformat := break_not_mem_format hl
  simp [Edge.line, hsource, htarget, hformat]

private theorem break_not_mem_title {label : Text} (h : '\n' ∉ label) (i : Nat) : '\n' ∉ formatTitle i label := by
  unfold formatTitle
  split
  · exact h
  · have hwrap := break_not_mem_wrap .rectangle h
    have hname := Text.break_not_mem_of_isWord (isName_titleName i).1
    simp only [Shape.wrap, List.mem_append, not_or] at hwrap
    simp only [List.mem_append, not_or] at hname
    simp [hname, hwrap]

private theorem break_not_mem_block {names : Naming} {b : Block} (hn : ∀ n ∈ b.nodes, IsName (names.name n.id) ∧
    Framed n.shape n.label) (ht : '\n' ∉ b.label) (he : ∀ e ∈ b.edges, IsName (names.name e.source) ∧
    IsName (names.name e.target) ∧ e.link.Writable) (size : Int) (i : Nat) :
    ∀ l ∈ b.lines size names i, '\n' ∉ l := by
  have hindent := Text.break_not_mem_indent size
  have htitle := break_not_mem_title ht i
  have hdirection : ∀ d : Direction, '\n' ∉ directionLine d := by
    intro d
    cases d <;> decide
  intro l hl
  rcases List.mem_append.1 hl with hl | hl
  · rcases List.mem_append.1 hl with hl | hl
    · rw [List.mem_singleton.1 hl]
      simp only [List.mem_append, List.mem_cons, not_or]
      exact ⟨⟨hindent 1, by decide⟩, by decide, htitle⟩
    · obtain ⟨m, hm, rfl⟩ := List.mem_map.1 hl
      rw [List.mem_append, not_or]
      refine ⟨hindent 2, ?_⟩
      rcases List.mem_append.1 hm with hm | hm
      · rcases List.mem_append.1 hm with hm | hm
        · obtain ⟨d, -, rfl⟩ := List.mem_map.1 hm
          exact hdirection d
        · obtain ⟨n, hmem, rfl⟩ := List.mem_map.1 hm
          exact break_not_mem_node_line (hn n hmem).1 (hn n hmem).2
      · obtain ⟨e, hmem, rfl⟩ := List.mem_map.1 hm
        obtain ⟨hs, ht, hlink⟩ := he e hmem
        exact break_not_mem_edge_line hs ht hlink
  · rw [List.mem_singleton.1 hl, List.mem_append, not_or]
    exact ⟨hindent 1, by decide⟩

private theorem kinds_direction (d : Direction) : kinds rule d.word = [.direction d] := by
  have hword : kinds rule (d.word ++ []) = .direction d :: kinds rule [] :=
    kinds_reserved (by cases d <;> decide) (by cases d <;> decide) (by simp)
  rwa [List.append_nil, kinds_nil] at hword

private theorem kinds_block {names : Naming} {b : Block} (hn : ∀ n ∈ b.nodes, IsName (names.name n.id) ∧
    Framed n.shape n.label) (he : ∀ e ∈ b.edges, IsName (names.name e.source) ∧
    IsName (names.name e.target) ∧ e.link.Writable) (size : Int) (i : Nat) :
    ((b.lines size names i).flatMap fun l => .newline :: kinds rule l) = b.kinds names i := by
  have hopen : kinds rule (subgraphWord ++ ' ' :: formatTitle i b.label) =
      .opening :: kinds rule (formatTitle i b.label) := by
    rw [kinds_reserved (by decide) (k := .opening) (by decide) (by simp [Text.isWordChar]), kinds_space]
  have hclose : kinds rule endWord = [.closing] := by
    have h : kinds rule (endWord ++ []) = .closing :: kinds rule [] :=
      kinds_reserved (by decide) (by decide) (by simp)
    rwa [List.append_nil, kinds_nil] at h
  have hdirection : ∀ d : Direction, kinds rule (directionLine d) = [.keyword .direction, .direction d] := by
    intro d
    rw [directionLine, kinds_reserved (by decide) (k := .keyword .direction) (by decide) (by simp [Text.isWordChar]),
      kinds_space, kinds_direction]
  have hnodes : (b.nodes.flatMap fun n => Kind.newline :: kinds rule (n.line names)) =
      b.nodes.flatMap (·.kinds names) := by
    apply List.flatMap_congr
    intro n hmem
    rw [kinds_node_line (hn n hmem).1 (hn n hmem).2]
    rfl
  have hedges : (b.edges.flatMap fun e => Kind.newline :: kinds rule (e.line names)) =
      b.edges.flatMap fun e => .newline :: e.kinds names := by
    apply List.flatMap_congr
    intro e hmem
    obtain ⟨hs, ht, hlink⟩ := he e hmem
    rw [kinds_edge_line hs ht hlink]
  have hhead : kinds rule (Text.indent size 1 ++ subgraphWord ++ ' ' :: formatTitle i b.label) =
      .opening :: kinds rule (formatTitle i b.label) := by
    rw [List.append_assoc, kinds_indent, hopen]
  have hbody : ∀ ls : List Text, ((ls.map (Text.indent size 2 ++ ·)).flatMap fun l => Kind.newline :: kinds rule l) =
      ls.flatMap fun l => Kind.newline :: kinds rule l := by
    intro ls
    rw [List.flatMap_map]
    apply List.flatMap_congr
    intro l _
    rw [kinds_indent]
  have hdirections : (b.direction.toList.flatMap fun d => Kind.newline :: kinds rule (directionLine d)) =
      directionKinds b.direction := by
    apply List.flatMap_congr
    intro d _
    rw [hdirection]
  rw [Block.lines, List.flatMap_append, List.flatMap_append, hbody, List.flatMap_append, List.flatMap_append,
    List.flatMap_map, List.flatMap_map, List.flatMap_map, hdirections, hnodes, hedges, List.flatMap_singleton, hhead,
    List.flatMap_singleton, kinds_indent, hclose, Block.kinds]
  simp only [List.append_assoc, List.cons_append, List.nil_append]

/-! ### The text of a chart -/

section

variable {a : Arrangement}

private theorem Arrangement.block_lines (hs : a.Sound) (hw : a.Writable) {b : Block} (hb : b ∈ a.blocks) :
    (∀ n ∈ b.nodes, IsName (a.naming.name n.id) ∧ Framed n.shape n.label) ∧ '\n' ∉ b.label ∧
      ∀ e ∈ b.edges, IsName (a.naming.name e.source) ∧ IsName (a.naming.name e.target) ∧ e.link.Writable := by
  refine ⟨?_, hw.titles b hb, ?_⟩
  · intro n hn
    have hmem : n ∈ a.allNodes := List.mem_append_right _ (List.mem_flatMap.2 ⟨b, hb, hn⟩)
    exact ⟨Arrangement.isName_name (List.mem_map_of_mem hmem), hw.nodes n hmem⟩
  · intro e he
    have hmem : e ∈ a.allEdges := List.mem_append_left _ (List.mem_flatMap.2 ⟨b, hb, he⟩)
    obtain ⟨hsource, htarget⟩ := hs.ends hmem
    exact ⟨Arrangement.isName_name hsource, Arrangement.isName_name htarget, hw.edges e hmem⟩

private theorem break_not_mem_lines (hs : a.Sound) (hw : a.Writable) (size : Int) : ∀ l ∈ a.lines size, '\n' ∉ l := by
  have hindent := Text.break_not_mem_indent size
  intro l hl
  rcases List.mem_append.1 hl with hl | hl
  · rcases List.mem_append.1 hl with hl | hl
    · rcases List.mem_append.1 hl with hl | hl
      · rw [List.mem_singleton.1 hl]
        cases a.direction <;> decide
      · obtain ⟨n, hn, rfl⟩ := List.mem_map.1 hl
        have hmem : n ∈ a.allNodes := List.mem_append_left _ hn
        rw [List.mem_append, not_or]
        exact ⟨hindent 1, break_not_mem_node_line (Arrangement.isName_name (List.mem_map_of_mem hmem))
          (hw.nodes n hmem)⟩
    · obtain ⟨ls, hls, hl⟩ := List.mem_flatten.1 hl
      obtain ⟨i, hi, rfl⟩ := List.mem_mapIdx.1 hls
      obtain ⟨hn, ht, he⟩ := Arrangement.block_lines hs hw (List.getElem_mem hi)
      exact break_not_mem_block hn ht he size i l hl
  · obtain ⟨e, he, rfl⟩ := List.mem_map.1 hl
    have hmem : e ∈ a.allEdges := List.mem_append_right _ he
    obtain ⟨hsource, htarget⟩ := hs.ends hmem
    rw [List.mem_append, not_or]
    exact ⟨hindent 1, break_not_mem_edge_line (Arrangement.isName_name hsource) (Arrangement.isName_name htarget)
      (hw.edges e hmem)⟩

/-- The tokens of a chart: the header, the nodes, the blocks, the edges. -/
theorem kinds_lines (hs : a.Sound) (hw : a.Writable) (size : Int) : kinds rule (Text.unlines (a.lines size)) =
    .keyword .flowchart :: .direction a.direction :: a.kinds := by
  have hheader : kinds rule (Keyword.flowchart.word ++ ' ' :: a.direction.word) =
      [.keyword .flowchart, .direction a.direction] := by
    rw [kinds_reserved (by decide) (k := .keyword .flowchart) (by decide) (by simp [Text.isWordChar]), kinds_space,
      kinds_direction]
  have hnodes : ((a.nodes.map fun n => Text.indent size 1 ++ n.line a.naming).flatMap fun l =>
      Kind.newline :: kinds rule l) = a.nodes.flatMap (·.kinds a.naming) := by
    rw [List.flatMap_map]
    apply List.flatMap_congr
    intro n hn
    have hmem : n ∈ a.allNodes := List.mem_append_left _ hn
    rw [kinds_indent, kinds_node_line (Arrangement.isName_name (List.mem_map_of_mem hmem)) (hw.nodes n hmem)]
    rfl
  have hblocks : ((a.blocks.mapIdx (Block.lines size a.naming)).flatten.flatMap fun l => Kind.newline :: kinds rule l) =
      (a.blocks.mapIdx (Block.kinds a.naming)).flatten := by
    have hflat : ∀ L : List (List Text), (L.flatten.flatMap fun l => Kind.newline :: kinds rule l) =
        (L.map fun ls => ls.flatMap fun l => Kind.newline :: kinds rule l).flatten := by
      intro L
      induction L with
      | nil => rfl
      | cons ls L ih => rw [List.flatten_cons, List.flatMap_append, ih, List.map_cons, List.flatten_cons]
    have hmap : (a.blocks.mapIdx (Block.lines size a.naming)).map (fun ls => ls.flatMap fun l =>
        Kind.newline :: kinds rule l) = a.blocks.mapIdx (Block.kinds a.naming) := by
      apply List.ext_getElem
      · simp
      · intro i hi hi'
        rw [List.length_mapIdx] at hi'
        obtain ⟨hn, -, he⟩ := Arrangement.block_lines hs hw (List.getElem_mem hi')
        rw [List.getElem_map, List.getElem_mapIdx, List.getElem_mapIdx, kinds_block hn he size i]
    rw [hflat, hmap]
  have hedges : ((a.edges.map fun e => Text.indent size 1 ++ e.line a.naming).flatMap fun l =>
      Kind.newline :: kinds rule l) = a.edges.flatMap fun e => .newline :: e.kinds a.naming := by
    rw [List.flatMap_map]
    apply List.flatMap_congr
    intro e he
    have hmem : e ∈ a.allEdges := List.mem_append_right _ he
    obtain ⟨hsource, htarget⟩ := hs.ends hmem
    rw [kinds_indent, kinds_edge_line (Arrangement.isName_name hsource) (Arrangement.isName_name htarget)
      (hw.edges e hmem)]
  have hbreak := break_not_mem_lines hs hw size
  unfold Arrangement.lines at hbreak ⊢
  rw [List.append_assoc, List.append_assoc, List.cons_append] at hbreak ⊢
  rw [List.nil_append] at hbreak ⊢
  rw [rule_lineLocal.kinds_unlines hbreak, List.flatMap_append, List.flatMap_append, hheader, hnodes, hblocks, hedges,
    Arrangement.kinds, List.append_assoc]
  rfl

end

end DiagramText.Flowchart

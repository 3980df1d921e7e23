import DiagramText.Proofs.Flowchart.Drafting
import DiagramText.Proofs.Flowchart.Keeping

/-!
# What a text can hold

Not every diagram comes out of a text.  The tokens of a text are clean (`clean_of_mem_kinds`), so are the statements
that are read from them (`clean_of_mem_document`), and adding clean statements keeps a draft clean (`Draft.Clean.add`).
So in the diagram of a text every node is there once and in one subgraph at most, every edge joins nodes of the diagram,
and labels are clear of closing brackets (`tidy_of_read`).
-/

namespace DiagramText.Flowchart

/-! ### Tokens and statements -/

/-- The link is written and read back as it is. -/
def Link.Clean (l : Link) : Prop := l.Writable ∧ l.normal = l

/-- What a text can give to a token. -/
def Kind.Clean : Kind → Prop
  | word name => Text.isWord name = true
  | node name shape label => Text.isWord name = true ∧ shape.Clear label
  | link _ l => l.Clean
  | _ => True

/-- The identifier is a word, and the label is clear of closing brackets. -/
structure Mention.Clean (m : Mention) : Prop where
  key : Text.isWord m.key = true
  look : ∀ look ∈ m.look, look.1.Clear look.2

/-- What a text can give to a statement. -/
def Statement.Clean : Statement → Prop
  | chain first links _ => first.Clean ∧ ∀ l ∈ links, l.1.Clean ∧ l.2.Clean
  | opening title _ _ => '\n' ∉ title
  | _ => True

private theorem clean_of_wordRule {w behind : Text} {k : Kind} (hw : Text.isWord w = true)
    (h : (wordRule w behind).kind = some k) : k.Clean := by
  unfold wordRule at h
  split at h
  · rename_i kind hreserved
    cases h
    unfold Kind.ofReserved? at hreserved
    split at hreserved
    · cases hreserved
      trivial
    · split at hreserved
      · cases hreserved
        trivial
      · cases hk : (Keyword.ofWord? w).map Kind.keyword with
        | some kind =>
          rw [hk] at hreserved
          obtain ⟨keyword, -, rfl⟩ := Option.map_eq_some_iff.1 hk
          cases hreserved
          trivial
        | none =>
          rw [hk] at hreserved
          obtain ⟨d, -, rfl⟩ := Option.map_eq_some_iff.1 hreserved
          trivial
  · dsimp only at h
    split at h
    · rename_i found hfound
      cases h
      exact ⟨hw, Shape.clear_of_readShape hfound⟩
    · cases h
      exact hw

/-- Every token of a text is clean. -/
theorem clean_of_mem_kinds {s : Text} {k : Kind} (h : k ∈ kinds rule s) : k.Clean := by
  obtain ⟨c, r, -, -, hk⟩ := exists_rule_of_mem_kinds h
  unfold rule at hk
  split at hk
  · cases hk
    trivial
  · split at hk
    · cases hk
      trivial
    · split at hk
      · rename_i found hfound
        cases hk
        exact writable_of_readLink hfound
      · split at hk
        · rename_i hstart
          refine clean_of_wordRule ?_ hk
          rw [Text.isWord, hstart, Bool.true_and]
          exact List.all_takeWhile
        · cases hk

private theorem clean_of_mention? {k : Kind} (h : k.Clean) {m : Mention} (hm : k.mention? = some m) : m.Clean := by
  cases k with
  | word name =>
    cases hm
    exact ⟨h, by simp⟩
  | node name shape label =>
    cases hm
    refine ⟨h.1, ?_⟩
    intro look hl
    cases hl
    exact h.2
  | _ => cases hm

section

variable {ts : List (Token Kind)}

private theorem clean_of_suffix {us : List (Token Kind)} (h : ∀ t ∈ ts, t.kind.Clean) (hs : us <:+ ts) :
    ∀ t ∈ us, t.kind.Clean :=
  fun t ht => h t (hs.subset ht)

private theorem clean_of_skipBreaks {t : Token Kind} {us : List (Token Kind)} (h : ∀ t ∈ ts, t.kind.Clean)
    (hs : skipBreaks ts = t :: us) : t.kind.Clean ∧ ∀ t ∈ us, t.kind.Clean := by
  have hmem : t ∈ skipBreaks ts := by
    rw [hs]
    exact List.mem_cons_self
  exact ⟨h t ((skipTokens_suffix _ ts).subset hmem), clean_of_suffix h (suffix_of_skipTokens hs)⟩

private theorem clean_readTail (h : ∀ t ∈ ts, t.kind.Clean) : ∀ l ∈ (readTail ts).links, l.1.Clean ∧ l.2.Clean := by
  fun_induction readTail ts with
  | case1 ts symbol l place us hlink t vs hnext m hm tail ih =>
    obtain ⟨hl, hus⟩ := clean_of_skipBreaks h hlink
    obtain ⟨ht, hvs⟩ := clean_of_skipBreaks hus hnext
    intro x hx
    rcases List.mem_cons.1 hx with rfl | hx
    · exact ⟨hl, clean_of_mention? ht hm⟩
    · exact ih hvs x hx
  | case2 => simp
  | case3 => simp
  | case4 => simp

private theorem break_not_mem_words (h : ∀ t ∈ ts, t.kind.Clean) : ∀ w ∈ (readTitle.readWords ts).1, '\n' ∉ w := by
  fun_induction readTitle.readWords ts with
  | case1 w place ts ih =>
    intro v hv
    rcases List.mem_cons.1 hv with rfl | hv
    · exact Text.break_not_mem_of_isWord (h _ List.mem_cons_self)
    · exact ih (fun t ht => h t (List.mem_cons_of_mem _ ht)) v hv
  | case2 => simp

private theorem break_not_mem_readTitle (h : ∀ t ∈ ts, t.kind.Clean) : '\n' ∉ (readTitle ts).1 := by
  unfold readTitle
  split
  · rename_i label place us
    exact (h _ List.mem_cons_self).2.line
  · exact Text.not_mem_unwords (by decide) (break_not_mem_words h)

private theorem clean_readStatement (finish : Place) {t : Token Kind} (ht : t.kind.Clean)
    (h : ∀ t ∈ ts, t.kind.Clean) : (readStatement finish t ts).1.Clean := by
  unfold readStatement
  split
  · rename_i m hm
    exact ⟨clean_of_mention? ht hm, clean_readTail h⟩
  · split
    · exact break_not_mem_readTitle h
    · trivial
    · trivial

theorem clean_of_mem_statements (finish : Place) (h : ∀ t ∈ ts, t.kind.Clean) :
    ∀ st ∈ statements finish ts, st.Clean := by
  fun_induction statements finish ts with
  | case1 => simp
  | case2 t ts _ ih => exact ih fun u hu => h u (List.mem_cons_of_mem t hu)
  | case3 t ts _ read ih =>
    have hts : ∀ u ∈ ts, u.kind.Clean := fun u hu => h u (List.mem_cons_of_mem t hu)
    intro st hst
    rcases List.mem_cons.1 hst with rfl | hst
    · exact clean_readStatement finish (h t List.mem_cons_self) hts
    · exact ih (clean_of_suffix hts (readStatement_suffix finish t ts)) st hst

/-- The statements of a text stand behind a header with a direction, or there is no header. -/
theorem document_cases (cut : Tokens Kind) :
    (∃ k place us, skipBreaks cut.tokens = ⟨.keyword k, place⟩ :: us ∧
      (document cut).2 = statements cut.finish (readDirection us).2) ∨
      (document cut).2 = statements cut.finish (skipBreaks cut.tokens) := by
  unfold document
  split
  · rename_i place us hskip
    exact .inl ⟨_, place, us, hskip, rfl⟩
  · rename_i place us hskip
    exact .inl ⟨_, place, us, hskip, rfl⟩
  · exact .inr rfl

private theorem document_suffix (cut : Tokens Kind) :
    ∃ us, us <:+ cut.tokens ∧ (document cut).2 = statements cut.finish us := by
  rcases document_cases cut with ⟨k, place, us, hskip, hdocument⟩ | hdocument
  · exact ⟨_, (readDirection_suffix us).trans (suffix_of_skipTokens hskip), hdocument⟩
  · exact ⟨_, skipTokens_suffix _ cut.tokens, hdocument⟩

end

/-- Every statement of a text is clean. -/
theorem clean_of_mem_document {s : Text} : ∀ st ∈ (document ⟨unplaced (kinds rule s), {}⟩).2, st.Clean := by
  obtain ⟨us, hus, heq⟩ := document_suffix ⟨unplaced (kinds rule s), {}⟩
  rw [heq]
  apply clean_of_mem_statements
  intro t ht
  obtain ⟨k, hk, rfl⟩ := List.mem_map.1 (hus.subset ht)
  exact clean_of_mem_kinds hk

/-! ### Drafts -/

namespace Draft

/-- What clean statements make of a draft. -/
structure Clean (d : Draft) : Prop where
  names : d.names.Nodup
  looks : ∀ n ∈ d.nodes, n.2.1.Clear n.2.2
  edges : ∀ e ∈ d.edges, e.source ∈ d.names ∧ e.target ∈ d.names
  links : ∀ e ∈ d.edges, e.link.Clean
  titles : ∀ title ∈ d.subgraphs.map Subgraph.label, '\n' ∉ title
  members : (d.subgraphs.flatMap Subgraph.members).Nodup
  known : ∀ key ∈ d.subgraphs.flatMap Subgraph.members, key ∈ d.names

variable {d : Draft}

theorem nodes_enlist (d : Draft) (key : Text) : (d.enlist key).nodes = d.nodes := by
  unfold enlist
  split
  · rfl
  · split <;> rfl

theorem edges_enlist (d : Draft) (key : Text) : (d.enlist key).edges = d.edges := by
  unfold enlist
  split
  · rfl
  · split <;> rfl

private theorem labels_enlist (d : Draft) (key : Text) :
    (d.enlist key).subgraphs.map Subgraph.label = d.subgraphs.map Subgraph.label := by
  unfold enlist
  split
  · rfl
  · split
    · rfl
    · exact Keyed.map_modify (f := fun g => { g with members := g.members ++ [key] }) (g := Subgraph.label)
        (fun _ => rfl) _ _

private theorem members_modify (gs : List (Subgraph Text)) (i : Nat) (key : Text) :
    (gs.modify i fun g => { g with members := g.members ++ [key] }).flatMap Subgraph.members =
        gs.flatMap Subgraph.members ∨
      ((gs.modify i fun g => { g with members := g.members ++ [key] }).flatMap Subgraph.members).Perm
        (key :: gs.flatMap Subgraph.members) := by
  induction gs generalizing i with
  | nil => simp
  | cons g gs ih =>
    cases i with
    | zero =>
      right
      rw [List.modify_zero_cons, List.flatMap_cons, List.flatMap_cons, List.append_assoc]
      exact List.perm_middle
    | succ i =>
      rw [List.modify_succ_cons, List.flatMap_cons, List.flatMap_cons]
      rcases ih i with h | h
      · exact Or.inl (by rw [h])
      · exact Or.inr ((h.append_left g.members).trans List.perm_middle)

/-- A node is listed once: it is new to all subgraphs, or nothing changes. -/
private theorem members_enlist (d : Draft) (key : Text) :
    (d.enlist key).subgraphs.flatMap Subgraph.members = d.subgraphs.flatMap Subgraph.members ∨
      key ∉ d.subgraphs.flatMap Subgraph.members ∧
        ((d.enlist key).subgraphs.flatMap Subgraph.members).Perm (key :: d.subgraphs.flatMap Subgraph.members) := by
  unfold enlist
  split
  · exact Or.inl rfl
  · rename_i i inside hin
    split
    · exact Or.inl rfl
    · rename_i hany
      rcases members_modify d.subgraphs i key with h | h
      · exact Or.inl h
      · refine Or.inr ⟨?_, h⟩
        intro hmem
        obtain ⟨g, hg, hkey⟩ := List.mem_flatMap.1 hmem
        exact hany (List.any_eq_true.2 ⟨g, hg, by simpa using hkey⟩)

private theorem Clean.enlist (h : d.Clean) {key : Text} (hkey : key ∈ d.names) : (d.enlist key).Clean := by
  have hnames : (d.enlist key).names = d.names := congrArg Keyed.keys (nodes_enlist d key)
  refine ⟨?_, ?_, ?_, ?_, ?_, ?_, ?_⟩
  · rw [hnames]
    exact h.names
  · rw [nodes_enlist]
    exact h.looks
  · rw [edges_enlist, hnames]
    exact h.edges
  · rw [edges_enlist]
    exact h.links
  · rw [labels_enlist]
    exact h.titles
  · rcases members_enlist d key with heq | ⟨hnew, hperm⟩
    · rw [heq]
      exact h.members
    · exact hperm.nodup_iff.2 (List.nodup_cons.2 ⟨hnew, h.members⟩)
  · rw [hnames]
    intro k hk
    rcases members_enlist d key with heq | ⟨-, hperm⟩
    · rw [heq] at hk
      exact h.known k hk
    · rcases List.mem_cons.1 (hperm.mem_iff.1 hk) with rfl | hk
      · exact hkey
      · exact h.known k hk

theorem mem_names_mention {m : Mention} {key : Text} : key ∈ (d.mention m).names ↔ key ∈ d.names ∨ key = m.key := by
  rw [mention, names, nodes_enlist, Keyed.keys_upsert]
  split
  · rename_i hmem
    refine ⟨Or.inl, ?_⟩
    rintro (h | rfl)
    · exact h
    · exact hmem
  · rw [List.mem_append, List.mem_singleton]
    rfl

theorem Clean.mention (h : d.Clean) {m : Mention} (hm : m.Clean) : (d.mention m).Clean := by
  have hkey : Shape.rectangle.Clear m.key := by
    refine Shape.clear_of_bare _ ?_ (Text.break_not_mem_of_isWord hm.key)
    exact Text.quote_not_mem_of_isWord hm.key
  have hnodup :=
    Keyed.nodup_keys_upsert (k := m.key) (f := fun old => m.look.getD (old.getD (.rectangle, m.key))) h.names
  have hmem : ∀ {k}, k ∈ d.names ∨ k = m.key →
      k ∈ (d.nodes.upsert m.key fun old => m.look.getD (old.getD (.rectangle, m.key))).keys := by
    intro k hk
    have hmention := mem_names_mention.2 hk
    rwa [Draft.mention, Draft.names, nodes_enlist] at hmention
  refine Clean.enlist (d := { d with nodes := _ }) ⟨hnodup, ?_, ?_, h.links, h.titles, h.members, ?_⟩
    (hmem (Or.inr rfl))
  · rintro ⟨k, look⟩ hn
    have hget := Keyed.get?_of_mem hnodup hn
    rw [Keyed.get?_upsert] at hget
    split at hget
    · rename_i hk
      cases hget
      cases hl : m.look with
      | some look => exact hm.look look hl
      | none =>
        cases hold : Keyed.get? d.nodes m.key with
        | some old => exact h.looks (m.key, old) (Keyed.mem_of_get? hold)
        | none => exact hkey
    · exact h.looks _ (Keyed.mem_of_get? hget)
  · intro e he
    obtain ⟨hs, ht⟩ := h.edges e he
    exact ⟨hmem (Or.inl hs), hmem (Or.inl ht)⟩
  · exact fun k hk => hmem (Or.inl (h.known k hk))

private theorem Clean.join (h : d.Clean) {source : Text} (hs : source ∈ d.names) {links : List (Link × Mention)}
    (hl : ∀ l ∈ links, l.1.Clean ∧ l.2.Clean) : (d.join source links).Clean := by
  induction links generalizing d source with
  | nil => exact h
  | cons l links ih =>
    obtain ⟨l, m⟩ := l
    obtain ⟨hlink, hm⟩ := hl _ List.mem_cons_self
    have hd := h.mention hm
    have hsource : source ∈ (d.mention m).names := mem_names_mention.2 (Or.inl hs)
    have htarget : m.key ∈ (d.mention m).names := mem_names_mention.2 (Or.inr rfl)
    refine ih (d := { d.mention m with edges := (d.mention m).edges ++ [⟨source, m.key, l⟩] })
      ⟨hd.names, hd.looks, ?_, ?_, hd.titles, hd.members, hd.known⟩ htarget fun x hx => hl x (List.mem_cons_of_mem _ hx)
    · intro e he
      rcases List.mem_append.1 he with he | he
      · exact hd.edges e he
      · rw [List.mem_singleton.1 he]
        exact ⟨hsource, htarget⟩
    · intro e he
      rcases List.mem_append.1 he with he | he
      · exact hd.links e he
      · rw [List.mem_singleton.1 he]
        exact hlink

/-- Adding a clean statement keeps a draft clean. -/
theorem Clean.add (h : d.Clean) {st : Statement} (hst : st.Clean) : (d.add st).Clean := by
  cases st with
  | chain first links loose => exact (h.mention hst.1).join (mem_names_mention.2 (Or.inr rfl)) hst.2
  | opening title direction place =>
    have hmembers : (d.subgraphs ++ [(⟨title, [], direction⟩ : Subgraph Text)]).flatMap Subgraph.members =
        d.subgraphs.flatMap Subgraph.members := by
      rw [List.flatMap_append, List.flatMap_singleton, List.append_nil]
    refine ⟨h.names, h.looks, h.edges, h.links, ?_, ?_, ?_⟩
    · intro t ht
      rw [Draft.add, List.map_append, List.mem_append] at ht
      rcases ht with ht | ht
      · exact h.titles t ht
      · rw [List.mem_singleton.1 ht]
        exact hst
    · rw [Draft.add, hmembers]
      exact h.members
    · rw [Draft.add, hmembers]
      exact h.known
  | closing place => exact ⟨h.names, h.looks, h.edges, h.links, h.titles, h.members, h.known⟩
  | skipped kind text place => exact h

theorem clean_ofStatements {sts : List Statement} (h : ∀ st ∈ sts, st.Clean) : (ofStatements sts).Clean := by
  have hrun : ∀ d : Draft, d.Clean → (sts.foldl Draft.add d).Clean := by
    induction sts with
    | nil => exact fun d hd => hd
    | cons st sts ih =>
      intro d hd
      rw [List.foldl_cons]
      exact ih (fun x hx => h x (List.mem_cons_of_mem st hx)) _ (hd.add (h st List.mem_cons_self))
  apply hrun
  constructor <;> simp [names]

end Draft

/-! ### Diagrams -/

/-- What the diagram of a text is: every node is there once and in one subgraph at most, edges and members are nodes of
the diagram, links are written as they are, and labels are clear of closing brackets. -/
structure Diagram.Tidy (d : Diagram) : Prop where
  ids : (d.nodes.map Node.id).Nodup
  nodes : ∀ n ∈ d.nodes, n.shape.Clear n.label
  edges : ∀ e ∈ d.edges, e.source ∈ d.nodes.map Node.id ∧ e.target ∈ d.nodes.map Node.id
  links : ∀ e ∈ d.edges, e.link.Clean
  titles : ∀ g ∈ d.subgraphs, '\n' ∉ g.label
  members : (d.subgraphs.flatMap Subgraph.members).Nodup
  known : ∀ id ∈ d.subgraphs.flatMap Subgraph.members, id ∈ d.nodes.map Node.id

theorem Draft.Clean.tidy {d : Draft} (h : d.Clean) (direction : Direction) : (d.toDiagram direction).Tidy := by
  have hids := Draft.map_id_toDiagram h.names direction
  have hmembers : (d.toDiagram direction).subgraphs.flatMap Subgraph.members =
      (d.subgraphs.flatMap Subgraph.members).map d.id := by
    rw [Draft.toDiagram, List.flatMap_map, List.map_flatMap]
    rfl
  have hnodup : ∀ keys : List Text, keys.Nodup → (∀ key ∈ keys, key ∈ d.names) → (keys.map d.id).Nodup := by
    intro keys hkeys hknown
    exact List.Nodup.map_on (fun k hk j hj => Draft.id_inj (hknown k hk) (hknown j hj)) hkeys
  refine ⟨?_, ?_, ?_, ?_, ?_, ?_, ?_⟩
  · rw [hids]
    exact hnodup d.names h.names fun _ hk => hk
  · intro n hn
    obtain ⟨i, hi, rfl⟩ := List.mem_mapIdx.1 hn
    exact h.looks _ (List.getElem_mem hi)
  · rw [hids]
    intro e he
    obtain ⟨e', he', rfl⟩ := List.mem_map.1 he
    obtain ⟨hs, ht⟩ := h.edges e' he'
    exact ⟨List.mem_map_of_mem hs, List.mem_map_of_mem ht⟩
  · intro e he
    obtain ⟨e', he', rfl⟩ := List.mem_map.1 he
    exact h.links e' he'
  · intro g hg
    obtain ⟨g', hg', rfl⟩ := List.mem_map.1 hg
    exact h.titles _ (List.mem_map_of_mem hg')
  · rw [hmembers]
    exact hnodup _ h.members h.known
  · rw [hmembers, hids]
    intro id hid
    obtain ⟨key, hkey, rfl⟩ := List.mem_map.1 hid
    exact List.mem_map_of_mem (h.known key hkey)

/-- The diagram of a text is tidy. -/
theorem tidy_of_read {stack : Stack} {s : Text} {d : Diagram} (h : (read stack s).outcome = .ok d) : d.Tidy := by
  obtain ⟨-, -, rfl⟩ := read_eq_ok_iff.1 h
  exact (Draft.clean_ofStatements clean_of_mem_document).tidy _

/-! ### Titles -/

/-- The title of a subgraph that a statement opens. -/
def Statement.title? : Statement → Option Text
  | opening title _ _ => some title
  | _ => none

namespace Draft

variable {d : Draft}

private theorem labels_mention (d : Draft) (m : Mention) :
    (d.mention m).subgraphs.map Subgraph.label = d.subgraphs.map Subgraph.label := labels_enlist _ m.key

private theorem labels_join (d : Draft) (source : Text) (links : List (Link × Mention)) :
    (d.join source links).subgraphs.map Subgraph.label = d.subgraphs.map Subgraph.label := by
  induction links generalizing d source with
  | nil => rfl
  | cons l links ih =>
    obtain ⟨l, m⟩ := l
    rw [join, ih]
    exact labels_mention d m

private theorem labels_add (d : Draft) (st : Statement) :
    (d.add st).subgraphs.map Subgraph.label = d.subgraphs.map Subgraph.label ++ st.title?.toList := by
  cases st with
  | chain first links loose =>
    rw [add, labels_join, labels_mention]
    exact (List.append_nil _).symm
  | opening title direction place =>
    rw [add, List.map_append]
    rfl
  | _ => exact (List.append_nil _).symm

/-- The titles of a draft are those of the statements that open subgraphs. -/
theorem labels_ofStatements (sts : List Statement) :
    (ofStatements sts).subgraphs.map Subgraph.label = sts.filterMap Statement.title? := by
  have hrun : ∀ d : Draft, (sts.foldl add d).subgraphs.map Subgraph.label =
      d.subgraphs.map Subgraph.label ++ sts.filterMap Statement.title? := by
    induction sts with
    | nil => simp
    | cons st sts ih =>
      intro d
      rw [List.foldl_cons, ih, labels_add, List.append_assoc]
      congr 1
      cases h : st.title? with
      | none => rw [List.filterMap_cons_none h, Option.toList_none, List.nil_append]
      | some title => rw [List.filterMap_cons_some h, Option.toList_some, List.singleton_append]
  exact hrun {}

end Draft

end DiagramText.Flowchart

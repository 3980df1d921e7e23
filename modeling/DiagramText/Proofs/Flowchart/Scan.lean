import DiagramText.Proofs.Flowchart.Reach

/-!
# Scanning the tokens of a flowchart

What a flowchart text says about nodes and edges can be told from its tokens one after the other, without following
statements and subgraphs: all that matters is which tokens belong to titles (`Title`) and what the others are
(`Role`).  Each statement takes up the head of the roles and adds just what the scan finds there
(`taken_readStatement`), so the whole text says what the scan finds in the tokens that are read (`read_eq_scan`).  These
are all of them, unless the subgraphs nest deeper than there is room for.
-/

namespace DiagramText.Flowchart

/-! ### Roles -/

/-- What of a title may follow: nothing, its beginning, or another word. -/
inductive Title where
  | outside
  | start
  | words
deriving DecidableEq, Repr

/-- Whether a token belongs to a title: a node or a word right behind `subgraph`, or a word right behind such a
word. -/
def Title.holds : Title → Kind → Bool
  | start, .node _ _ _ => true
  | start, .word _ => true
  | words, .word _ => true
  | _, _ => false

/-- What may follow a token. -/
def Title.next : Title → Kind → Title
  | _, .opening => start
  | start, .word _ => words
  | words, .word _ => words
  | _, _ => outside

/-- What a token is outside titles. -/
inductive Role where
  | node (m : Mention)
  | link (l : Link) (place : Place)
  | opening
  | closing
  | other
deriving DecidableEq, Repr

/-- The role of a token outside titles; line breaks and comments have none. -/
def Role.of? (t : Token Kind) : Option Role :=
  match t.kind with
  | .word name => some (node ⟨name, none⟩)
  | .node name shape label => some (node ⟨name, some (shape, label)⟩)
  | .link _ l => some (link l t.place)
  | .opening => some opening
  | .closing => some closing
  | .keyword _ | .direction _ => some other
  | .newline | .comment _ => none

/-- The roles of the tokens, of which the first may belong to a title as `title` says. -/
def rolesFrom (title : Title) : List (Token Kind) → List Role
  | [] => []
  | t :: ts => (if title.holds t.kind then some .other else Role.of? t).toList ++ rolesFrom (title.next t.kind) ts

/-- The roles of the tokens of a text. -/
def roles (ts : List (Token Kind)) : List Role := rolesFrom .outside ts

namespace Role

/-- The mentions of nodes. -/
def mentions : List Role → List Mention
  | [] => []
  | node m :: rs => m :: mentions rs
  | _ :: rs => mentions rs

/-- The identifiers of the nodes, in the order in which they come first. -/
def names (rs : List Role) : List Text := Keyed.firsts (fun key => key) ((mentions rs).map Mention.key)

theorem nodup_names (rs : List Role) : (names rs).Nodup := by
  have hfirsts : ((names rs).map fun key => key).Nodup := Keyed.nodup_map_firsts _
  rwa [List.map_id'] at hfirsts

/-- The id of the node with this identifier: nodes are numbered as they come first. -/
def id (rs : List Role) (key : Text) : Id := .minted ((names rs).idxOf key)

/-- The links between two nodes. -/
def edges : List Role → List (Edge Text)
  | [] => []
  | node m :: link l _ :: node n :: rs => ⟨m.key, n.key, l⟩ :: edges (node n :: rs)
  | _ :: rs => edges rs

/-- The places of the links behind a node that lead to none. -/
def looseEnds : List Role → List Place
  | [] => []
  | node _ :: link _ _ :: node n :: rs => looseEnds (node n :: rs)
  | node _ :: link _ place :: rs => place :: looseEnds rs
  | _ :: rs => looseEnds rs

end Role

/-! ### Roles of tokens -/

section

variable {ts : List (Token Kind)}

theorem roles_break {t : Token Kind} (h : t.kind.isBreak = true) : roles (t :: ts) = roles ts := by
  obtain ⟨kind, place⟩ := t
  cases kind with
  | newline => rfl
  | comment text => rfl
  | _ => cases h

theorem roles_skipBreaks (ts : List (Token Kind)) : roles (skipBreaks ts) = roles ts :=
  read_skipTokens (fun _ _ h => roles_break h) ts

/-- Behind breaks a link has its role. -/
theorem roles_link {symbol : Text} {l : Link} {place : Place} {us : List (Token Kind)}
    (h : skipBreaks ts = ⟨.link symbol l, place⟩ :: us) : roles ts = .link l place :: roles us := by
  rw [← roles_skipBreaks ts, h]
  rfl

theorem roles_mention {t : Token Kind} {m : Mention} (h : t.kind.mention? = some m) :
    roles (t :: ts) = .node m :: roles ts := by
  obtain ⟨kind, place⟩ := t
  cases kind with
  | word name =>
    cases h
    rfl
  | node name shape label =>
    cases h
    rfl
  | _ => cases h

end

/-! ### Statements -/

namespace Statement

/-- The mentions of nodes in a statement. -/
def mentions : Statement → List Mention
  | chain first links _ => first :: links.map Prod.snd
  | _ => []

/-- The edges behind a node. -/
def edgesBehind (source : Text) : List (Link × Mention) → List (Edge Text)
  | [] => []
  | (l, m) :: links => ⟨source, m.key, l⟩ :: edgesBehind m.key links

/-- The edges of a statement. -/
def edges : Statement → List (Edge Text)
  | chain first links _ => edgesBehind first.key links
  | _ => []

/-- The place of a last link that leads nowhere. -/
def looseEnds : Statement → List Place
  | chain _ _ loose => loose.toList
  | _ => []

theorem errors_eq (st : Statement) : st.errors = st.looseEnds.map fun place => ⟨place, .linkTarget⟩ := by
  cases st with
  | chain first links loose => cases loose <;> rfl
  | _ => rfl

end Statement

/-- A statement takes up the head of the roles, up to `rest`: it says what is found there. -/
structure Taken (st : Statement) (rs rest : List Role) : Prop where
  mentions : Role.mentions rs = st.mentions ++ Role.mentions rest
  edges : Role.edges rs = st.edges ++ Role.edges rest
  looseEnds : Role.looseEnds rs = st.looseEnds ++ Role.looseEnds rest

/-! ### Chains -/

/-- Behind a loose link stands no node. -/
private theorem taken_loose {t : Token Kind} (hbreak : t.kind.isBreak = false) (hm : t.kind.mention? = none)
    (m : Mention) (l : Link) (place : Place) (ts : List (Token Kind)) :
    Taken (.chain m [] (some place)) (.node m :: .link l place :: roles (t :: ts)) (roles (t :: ts)) := by
  obtain ⟨kind, at_⟩ := t
  cases kind with
  | word name => cases hm
  | node name shape label => cases hm
  | newline => cases hbreak
  | comment text => cases hbreak
  | _ => exact ⟨rfl, rfl, rfl⟩

/-- Behind a chain stands no link. -/
private theorem taken_last {t : Token Kind} (hbreak : t.kind.isBreak = false)
    (hlink : ∀ symbol l, t.kind ≠ .link symbol l) (m : Mention) (ts : List (Token Kind)) :
    Taken (.chain m [] none) (.node m :: roles (t :: ts)) (roles (t :: ts)) := by
  obtain ⟨kind, at_⟩ := t
  cases kind with
  | link symbol l => exact absurd rfl (hlink symbol l)
  | newline => cases hbreak
  | comment text => cases hbreak
  | _ => exact ⟨rfl, rfl, rfl⟩

private theorem taken_chain (m : Mention) (ts : List (Token Kind)) :
    Taken (.chain m (readTail ts).links (readTail ts).loose) (.node m :: roles ts) (roles (readTail ts).rest) := by
  fun_induction readTail ts generalizing m with
  | case1 ts symbol l place us hlink t vs hnext n hn tail ih =>
    have hroles : roles ts = .link l place :: .node n :: roles vs := by
      rw [roles_link hlink, ← roles_skipBreaks us, hnext, roles_mention hn]
    -- The node that the link leads to begins the rest of the chain.
    obtain ⟨hmentions, hedges, hloose⟩ := ih n
    have hedge : Role.edges (.node m :: .link l place :: .node n :: roles vs) =
        ⟨m.key, n.key, l⟩ :: Role.edges (.node n :: roles vs) := rfl
    rw [hroles]
    refine ⟨congrArg (List.cons m) hmentions, ?_, hloose⟩
    rw [hedge, hedges]
    rfl
  | case2 ts symbol l place us hlink t vs hnext hn =>
    rw [roles_link hlink, ← roles_skipBreaks us, hnext]
    exact taken_loose (not_of_skipTokens hnext) hn m l place vs
  | case3 ts symbol l place us hlink hnext =>
    rw [roles_link hlink, ← roles_skipBreaks us, hnext]
    exact ⟨rfl, rfl, rfl⟩
  | case4 ts hlink =>
    rw [← roles_skipBreaks ts]
    cases hts : skipBreaks ts with
    | nil => exact ⟨rfl, rfl, rfl⟩
    | cons t us =>
      apply taken_last (not_of_skipTokens hts)
      intro symbol l hkind
      exact hlink symbol l t.place us (by rw [hts, ← hkind])

/-! ### Subgraphs -/

/-- Roles that say nothing about nodes and edges are passed over. -/
def Passed (rs rest : List Role) : Prop := ∃ n, rs = List.replicate n .other ++ rest

theorem Passed.trans {rs rs' rs'' : List Role} (h : Passed rs rs') (h' : Passed rs' rs'') : Passed rs rs'' := by
  obtain ⟨n, rfl⟩ := h
  obtain ⟨n', rfl⟩ := h'
  exact ⟨n + n', by rw [← List.append_assoc, List.replicate_append_replicate]⟩

private theorem Passed.cons {rs rest : List Role} (h : Passed rs rest) : Passed (.other :: rs) rest := by
  obtain ⟨n, rfl⟩ := h
  exact ⟨n + 1, rfl⟩

private theorem Passed.refl (rs : List Role) : Passed rs rs := ⟨0, rfl⟩

private theorem Passed.taken {rs rest : List Role} (h : Passed rs rest) (st : Statement) (hm : st.mentions = [])
    (he : st.edges = []) (hl : st.looseEnds = []) : Taken st rs rest := by
  obtain ⟨n, rfl⟩ := h
  induction n with
  | zero =>
    refine ⟨?_, ?_, ?_⟩
    · rw [hm]
      rfl
    · rw [he]
      rfl
    · rw [hl]
      rfl
  | succ n ih => exact ⟨ih.mentions, ih.edges, ih.looseEnds⟩

private theorem passed_readWords (ts : List (Token Kind)) :
    Passed (rolesFrom .words ts) (roles (readTitle.readWords ts).2) := by
  fun_induction readTitle.readWords ts with
  | case1 w place ts ih => exact ih.cons
  | case2 ts hword =>
    cases ts with
    | nil => exact Passed.refl _
    | cons t ts =>
      obtain ⟨kind, place⟩ := t
      cases kind with
      | word w => exact absurd rfl (hword w place ts)
      | _ => exact Passed.refl _

/-- The title is passed over, and nothing more. -/
theorem passed_readTitle (ts : List (Token Kind)) : Passed (rolesFrom .start ts) (roles (readTitle ts).2) := by
  unfold readTitle
  split
  · exact (Passed.refl _).cons
  · rename_i hnode
    cases ts with
    | nil => exact Passed.refl _
    | cons t ts =>
      obtain ⟨kind, place⟩ := t
      cases kind with
      | word w => exact (passed_readWords ts).cons
      | node name shape label => exact absurd rfl (hnode name shape label place ts)
      | _ => exact Passed.refl _

theorem passed_readDirection (ts : List (Token Kind)) : Passed (roles ts) (roles (readDirection ts).2) := by
  rw [← roles_skipBreaks ts]
  unfold readDirection
  split
  · rename_i hdirection
    rw [hdirection]
    exact (Passed.refl _).cons
  · exact Passed.refl _

theorem passed_readInnerDirection (ts : List (Token Kind)) :
    Passed (roles ts) (roles (readInnerDirection ts).2) := by
  rw [← roles_skipBreaks ts]
  unfold readInnerDirection
  split
  · rename_i hkeyword
    rw [hkeyword]
    exact (passed_readDirection _).cons
  · exact Passed.refl _

/-! ### Whole texts -/

theorem taken_readStatement (finish : Place) {t : Token Kind} (h : t.kind.isBreak = false) (ts : List (Token Kind)) :
    Taken (readStatement finish t ts).1 (roles (t :: ts)) (roles (readStatement finish t ts).2) := by
  unfold readStatement
  split
  · rename_i m hm
    rw [roles_mention hm]
    exact taken_chain m ts
  · rename_i hm
    obtain ⟨kind, place⟩ := t
    cases kind with
    | opening =>
      have hpassed := ((passed_readTitle ts).trans (passed_readInnerDirection (readTitle ts).2)).taken
        (.opening (readTitle ts).1 (readInnerDirection (readTitle ts).2).1 (openingAt finish place ts)) rfl rfl rfl
      exact ⟨hpassed.mentions, hpassed.edges, hpassed.looseEnds⟩
    | closing => exact ⟨rfl, rfl, rfl⟩
    | keyword k => exact ⟨rfl, rfl, rfl⟩
    | direction d => exact ⟨rfl, rfl, rfl⟩
    | link symbol l => exact ⟨rfl, rfl, rfl⟩
    | word name => cases hm
    | node name shape label => cases hm
    | newline => cases h
    | comment text => cases h

/-- Statements say what the scan finds. -/
structure Scanned (sts : List Statement) (rs : List Role) : Prop where
  mentions : Role.mentions rs = sts.flatMap Statement.mentions
  edges : Role.edges rs = sts.flatMap Statement.edges
  looseEnds : Role.looseEnds rs = sts.flatMap Statement.looseEnds

theorem scanned_statements (finish : Place) (ts : List (Token Kind)) : Scanned (statements finish ts) (roles ts) := by
  fun_induction statements finish ts with
  | case1 => exact ⟨rfl, rfl, rfl⟩
  | case2 t ts hbreak ih =>
    rw [roles_break hbreak]
    exact ih
  | case3 t ts hbreak read ih =>
    have htaken := taken_readStatement finish (Bool.eq_false_iff.2 hbreak) ts
    refine ⟨?_, ?_, ?_⟩
    · rw [List.flatMap_cons, ← ih.mentions]
      exact htaken.mentions
    · rw [List.flatMap_cons, ← ih.edges]
      exact htaken.edges
    · rw [List.flatMap_cons, ← ih.looseEnds]
      exact htaken.looseEnds

private theorem Scanned.of_passed {sts : List Statement} {rs rest : List Role} (h : Scanned sts rest)
    (hpassed : Passed rs rest) : Scanned sts rs := by
  have htaken := hpassed.taken (.closing {}) rfl rfl rfl
  exact ⟨htaken.mentions.trans h.mentions, htaken.edges.trans h.edges, htaken.looseEnds.trans h.looseEnds⟩

/-- A text says what the scan finds, whatever header it has. -/
theorem scanned_document (cut : Tokens Kind) : Scanned (document cut).2 (roles cut.tokens) := by
  rw [← roles_skipBreaks cut.tokens]
  rcases document_cases cut with ⟨k, place, us, hskip, hdocument⟩ | hdocument
  · rw [hdocument, hskip]
    exact (scanned_statements cut.finish _).of_passed (passed_readDirection us).cons
  · rw [hdocument]
    exact scanned_statements cut.finish _

/-! ### Drafts -/

/-- Adds a mention to the nodes of a draft. -/
def Mention.addTo (nodes : Keyed Text (Shape × Text)) (m : Mention) : Keyed Text (Shape × Text) :=
  nodes.upsert m.key fun old => m.look.getD (old.getD (.rectangle, m.key))

namespace Draft

theorem nodes_mention (d : Draft) (m : Mention) : (d.mention m).nodes = m.addTo d.nodes := nodes_enlist _ _

private theorem edges_mention (d : Draft) (m : Mention) : (d.mention m).edges = d.edges := edges_enlist _ _

private theorem nodes_join (d : Draft) (source : Text) (links : List (Link × Mention)) :
    (d.join source links).nodes = (links.map Prod.snd).foldl Mention.addTo d.nodes := by
  induction links generalizing d source with
  | nil => rfl
  | cons l links ih =>
    obtain ⟨l, m⟩ := l
    rw [join, ih, List.map_cons, List.foldl_cons, ← nodes_mention]

private theorem edges_join (d : Draft) (source : Text) (links : List (Link × Mention)) :
    (d.join source links).edges = d.edges ++ Statement.edgesBehind source links := by
  induction links generalizing d source with
  | nil => exact (List.append_nil _).symm
  | cons l links ih =>
    obtain ⟨l, m⟩ := l
    rw [join, ih, edges_mention, Statement.edgesBehind, List.append_assoc, List.singleton_append]

/-- What a statement adds to the nodes of a draft. -/
theorem nodes_add (d : Draft) (st : Statement) : (d.add st).nodes = st.mentions.foldl Mention.addTo d.nodes := by
  cases st with
  | chain first links loose =>
    rw [add, nodes_join, nodes_mention]
    rfl
  | _ => rfl

/-- What a statement adds to the edges of a draft. -/
theorem edges_add (d : Draft) (st : Statement) : (d.add st).edges = d.edges ++ st.edges := by
  cases st with
  | chain first links loose =>
    rw [add, edges_join, edges_mention]
    rfl
  | _ => exact (List.append_nil _).symm

theorem nodes_ofStatements (sts : List Statement) :
    (ofStatements sts).nodes = (sts.flatMap Statement.mentions).foldl Mention.addTo [] := by
  have hrun : ∀ d : Draft, (sts.foldl add d).nodes = (sts.flatMap Statement.mentions).foldl Mention.addTo d.nodes := by
    induction sts with
    | nil => exact fun _ => rfl
    | cons st sts ih =>
      intro d
      rw [List.foldl_cons, ih, nodes_add, List.flatMap_cons, List.foldl_append]
  exact hrun {}

theorem edges_ofStatements (sts : List Statement) : (ofStatements sts).edges = sts.flatMap Statement.edges := by
  have hrun : ∀ d : Draft, (sts.foldl add d).edges = d.edges ++ sts.flatMap Statement.edges := by
    induction sts with
    | nil => exact fun _ => (List.append_nil _).symm
    | cons st sts ih =>
      intro d
      rw [List.foldl_cons, ih, edges_add, List.flatMap_cons, List.append_assoc]
  exact hrun {}

end Draft

/-- The nodes of a draft are those that the scan finds. -/
theorem Scanned.names {sts : List Statement} {rs : List Role} (h : Scanned sts rs) :
    (Draft.ofStatements sts).names = Role.names rs := by
  have hkeys := Keyed.keys_foldl_upsert (k := Mention.key)
    (f := fun (m : Mention) (old : Option (Shape × Text)) => m.look.getD (old.getD (.rectangle, m.key)))
    (sts.flatMap Statement.mentions) []
  simp only [Keyed.keys_nil, List.not_mem_nil, not_false_eq_true, decide_true, List.filter_true,
    List.nil_append] at hkeys
  rw [Draft.names, Draft.nodes_ofStatements, Role.names, h.mentions]
  exact hkeys

/-- Where no node is mentioned, no link is loose. -/
private theorem looseEnds_of_no_mention {ts : List (Token Kind)} (h : ∀ t ∈ ts, t.kind.mention? = none)
    (title : Title) : Role.looseEnds (rolesFrom title ts) = [] := by
  induction ts generalizing title with
  | nil => rfl
  | cons t ts ih =>
    rw [List.forall_mem_cons] at h
    obtain ⟨ht, hts⟩ := h
    obtain ⟨kind, place⟩ := t
    cases kind with
    | word name => cases ht
    | node name shape label => cases ht
    | _ => cases title <;> exact ih hts _

/-- A link behind the title of a subgraph is no edge, and none of the words of the title is a node. -/
example : Role.edges (roles (tokenize rule "subgraph a b\n--> c --> d --> end".toList).tokens) =
    [⟨"c".toList, "d".toList, {}⟩] := by decide +kernel

end DiagramText.Flowchart

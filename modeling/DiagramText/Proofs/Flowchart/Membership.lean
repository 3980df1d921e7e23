import DiagramText.Proofs.Flowchart.Canonical
import DiagramText.Proofs.Flowchart.Scan
import Mathlib.Data.List.Induction

/-!
# Nodes and subgraphs by a scan

The scan of the tokens also tells what the nodes of a text look like and where they belong.  A node looks as its last
mention with a shape says (`lastLook`).  For the subgraphs the scan counts what is opened and closed and notes which
node is mentioned where (`Nesting`); the first such note on a node is its home (`Role.home?`).  A draft follows the scan
from statement to statement (`Draft.Follows.add`), so the diagram of a text is what the scan finds (`scanned_of_read`).
-/

namespace DiagramText.Flowchart

/-! ### What the scan finds -/

/-- What the scan knows of subgraphs, which are numbered as they are opened: how many were opened, which of them are
open, the innermost first, and the mentions inside subgraphs, each with the innermost one that is open there. -/
structure Nesting where
  opened : Nat := 0
  inside : List Nat := []
  housed : Keyed Text Nat := []

namespace Nesting

/-- What a role adds: a subgraph opens inside those that are open, and an end closes the innermost one, if there is
any. -/
def step (n : Nesting) : Role → Nesting
  | .node m => { n with housed := n.housed ++ (n.inside.head?.map fun i => (m.key, i)).toList }
  | .opening => { n with opened := n.opened + 1, inside := n.opened :: n.inside }
  | .closing => { n with inside := n.inside.tail }
  | _ => n

/-- The nodes whose first mention inside any subgraph is in the subgraph number `i`, in the order of these mentions. -/
def members (n : Nesting) (i : Nat) : List Text := ((Keyed.firsts Prod.fst n.housed).filter (·.2 = i)).map Prod.fst

end Nesting

/-- The shape and label that mentions give to a node: those of the last one that has them.  Without one the node is a
rectangle, labelled with its identifier. -/
def lastLook (ms : List Mention) (key : Text) : Shape × Text :=
  ((ms.filter (·.key = key)).filterMap Mention.look).getLast?.getD (.rectangle, key)

namespace Role

/-- The subgraphs of a list of roles. -/
def nesting (rs : List Role) : Nesting := rs.foldl Nesting.step {}

/-- The number of the innermost subgraph that is open where a node is first mentioned inside any. -/
def home? (rs : List Role) (key : Text) : Option Nat := (nesting rs).housed.get? key

/-- The shape and label of a node. -/
def look (rs : List Role) (key : Text) : Shape × Text := lastLook (mentions rs) key

end Role

/-- The titles of the subgraphs, in the order in which they are opened. -/
def titles : List (Token Kind) → List Text
  | [] => []
  | t :: ts => if t.kind = .opening then (readTitle ts).1 :: titles ts else titles ts

/-- The nodes and subgraphs of the diagram are what the scan finds in the tokens. -/
structure Diagram.Scanned (d : Diagram) (ts : List (Token Kind)) : Prop where
  /-- There is a node for every identifier, in the order in which they come first. -/
  nodes : d.nodes.map (fun n => (n.id, n.shape, n.label)) =
    (Role.names (roles ts)).map fun key => (Role.id (roles ts) key, Role.look (roles ts) key)
  ids : (d.nodes.map Node.id).Nodup
  /-- There is a subgraph for every opening, in order. -/
  titles : d.subgraphs.map Subgraph.label = titles ts
  members : d.subgraphs.map Subgraph.members = (List.range (Role.nesting (roles ts)).opened).map fun i =>
    ((Role.nesting (roles ts)).members i).map (Role.id (roles ts))
  /-- A subgraph lists exactly the nodes that have their home there. -/
  home : ∀ i g, d.subgraphs[i]? = some g → ∀ key ∈ Role.names (roles ts),
    Role.id (roles ts) key ∈ g.members ↔ Role.home? (roles ts) key = some i
  once : (d.subgraphs.flatMap Subgraph.members).Nodup
  known : ∀ g ∈ d.subgraphs, ∀ id ∈ g.members, (d.node? id).isSome
  ends : ∀ e ∈ d.edges, (d.node? e.source).isSome ∧ (d.node? e.target).isSome

/-! ### Nesting of statements -/

/-- What a statement says about subgraphs. -/
def Statement.scope : Statement → List Role
  | chain first links _ => (first :: links.map Prod.snd).map .node
  | opening _ _ _ => [.opening]
  | closing _ => [.closing]
  | skipped _ _ _ => []

private theorem foldl_passed {rs rest : List Role} (h : Passed rs rest) (n : Nesting) :
    rs.foldl Nesting.step n = rest.foldl Nesting.step n := by
  obtain ⟨k, rfl⟩ := h
  induction k with
  | zero => rfl
  | succ k ih => exact ih

/-- A chain takes up the head of the roles; of it only the nodes matter. -/
private theorem foldl_chain (m : Mention) (ts : List (Token Kind)) (n : Nesting) :
    (Role.node m :: roles ts).foldl Nesting.step n = (roles (readTail ts).rest).foldl Nesting.step
      ((Statement.chain m (readTail ts).links (readTail ts).loose).scope.foldl Nesting.step n) := by
  fun_induction readTail ts generalizing m n with
  | case1 ts symbol l place us hlink t vs hnext k hk tail ih =>
    -- the scan passes over the link, and the node behind it heads what is left of the chain
    rw [roles_link hlink, ← roles_skipBreaks us, hnext, roles_mention hk]
    exact ih k (n.step (.node m))
  | case2 ts symbol l place us hlink t vs hnext hk =>
    rw [roles_link hlink, ← roles_skipBreaks us, hnext]
    rfl
  | case3 ts symbol l place us hlink hnext =>
    rw [roles_link hlink, ← roles_skipBreaks us, hnext]
    rfl
  | case4 ts hlink =>
    rw [← roles_skipBreaks ts]
    rfl

theorem foldl_readStatement (finish : Place) {t : Token Kind} (h : t.kind.isBreak = false) (ts : List (Token Kind))
    (n : Nesting) : (roles (t :: ts)).foldl Nesting.step n =
      (roles (readStatement finish t ts).2).foldl Nesting.step
        ((readStatement finish t ts).1.scope.foldl Nesting.step n) := by
  unfold readStatement
  split
  · rename_i m hm
    rw [roles_mention hm]
    exact foldl_chain m ts n
  · rename_i hm
    obtain ⟨kind, place⟩ := t
    cases kind with
    | opening => exact foldl_passed ((passed_readTitle ts).trans (passed_readInnerDirection _)) (n.step .opening)
    | word name => cases hm
    | node name shape label => cases hm
    | newline => cases h
    | comment text => cases h
    | _ => rfl

private theorem foldl_statements (finish : Place) (ts : List (Token Kind)) (n : Nesting) :
    (roles ts).foldl Nesting.step n = ((statements finish ts).flatMap Statement.scope).foldl Nesting.step n := by
  fun_induction statements finish ts generalizing n with
  | case1 => rfl
  | case2 t ts hbreak ih =>
    rw [roles_break hbreak]
    exact ih n
  | case3 t ts hbreak read ih =>
    rw [foldl_readStatement finish (Bool.eq_false_iff.2 hbreak) ts n, List.flatMap_cons, List.foldl_append]
    exact ih _

/-- The statements of a text open and close what its tokens do, whatever header it has. -/
theorem nesting_document (cut : Tokens Kind) :
    Role.nesting (roles cut.tokens) = Role.nesting ((document cut).2.flatMap Statement.scope) := by
  rw [← roles_skipBreaks cut.tokens]
  rcases document_cases cut with ⟨k, place, us, hskip, hdocument⟩ | hdocument
  · rw [hdocument, hskip]
    exact (foldl_passed (passed_readDirection us) {}).trans (foldl_statements cut.finish _ {})
  · rw [hdocument]
    exact foldl_statements cut.finish _ {}

/-! ### Titles of statements -/

private theorem titles_eq_brackets (finish : Place) (ts : List (Token Kind)) :
    (brackets finish ts).filterMap Bracket.title? = titles ts := by
  induction ts with
  | nil => rfl
  | cons t ts ih =>
    obtain ⟨kind, place⟩ := t
    cases kind with
    | opening => exact congrArg (_ :: ·) ih
    | _ => exact ih

/-- The statements of a text open subgraphs with the titles behind its tokens. -/
theorem titles_document (cut : Tokens Kind) : (document cut).2.filterMap Statement.title? = titles cut.tokens := by
  rw [← titles_eq_brackets cut.finish, ← brackets_document, List.filterMap_filterMap]
  congr 1
  funext st
  cases st <;> rfl

/-! ### Looks -/

theorem Role.mem_names_iff {rs : List Role} {key : Text} : key ∈ names rs ↔ key ∈ (mentions rs).map Mention.key := by
  have hfirsts : key ∈ (names rs).map (fun key => key) ↔
      key ∈ ((mentions rs).map Mention.key).map fun key => key := Keyed.mem_map_firsts
  rwa [List.map_id', List.map_id'] at hfirsts

private theorem lastLook_of_not_mem {ms : List Mention} {key : Text} (h : key ∉ ms.map Mention.key) :
    lastLook ms key = (.rectangle, key) := by
  have hnil : ms.filter (·.key = key) = [] := by
    rw [List.filter_eq_nil_iff]
    intro m hm
    rw [decide_eq_true_eq]
    rintro rfl
    exact h (List.mem_map_of_mem hm)
  rw [lastLook, hnil]
  rfl

private theorem lastLook_concat (ms : List Mention) (m : Mention) (key : Text) :
    lastLook (ms ++ [m]) key = if m.key = key then m.look.getD (lastLook ms key) else lastLook ms key := by
  unfold lastLook
  rw [List.filter_append, List.filterMap_append]
  by_cases hkey : m.key = key
  · cases hlook : m.look with
    | none => simp [hkey, hlook]
    | some look => simp [hkey, hlook]
  · simp [hkey]

/-- What mentions make of the nodes of a draft. -/
theorem get?_foldl_addTo (ms : List Mention) (key : Text) :
    Keyed.get? (ms.foldl Mention.addTo []) key = if key ∈ ms.map Mention.key then some (lastLook ms key) else none := by
  induction ms using List.reverseRecOn with
  | nil => rfl
  | append_singleton ms m ih =>
    rw [List.foldl_append, List.foldl_cons, List.foldl_nil, Mention.addTo, Keyed.get?_upsert, lastLook_concat,
      List.map_append, List.map_singleton]
    by_cases hkey : key = m.key
    · subst hkey
      have hold : (Keyed.get? (ms.foldl Mention.addTo []) m.key).getD (.rectangle, m.key) = lastLook ms m.key := by
        rw [ih]
        split
        · rfl
        · rename_i hnew
          exact (lastLook_of_not_mem hnew).symm
      rw [hold]
      simp
    · rw [if_neg hkey, ih, if_neg (Ne.symm hkey)]
      simp [hkey]

namespace Draft

variable {d : Draft} {n : Nesting}

/-- The nodes of a diagram as the draft holds them. -/
theorem map_looks_toDiagram (h : d.names.Nodup) (direction : Direction) :
    (d.toDiagram direction).nodes.map (fun n => (n.id, n.shape, n.label)) =
      d.nodes.map fun n => (d.id n.1, n.2.1, n.2.2) := by
  apply List.ext_getElem
  · simp [toDiagram]
  · intro i hi hi'
    have hlt : i < d.nodes.length := by simpa using hi'
    have hlt' : i < d.names.length := by simpa [names, Keyed.keys] using hlt
    have hname : d.names[i] = d.nodes[i].1 := by simp [names, Keyed.keys]
    have hid : d.id d.nodes[i].1 = .minted i := by rw [← hname, id, h.idxOf_getElem i hlt']
    simp [toDiagram, hid]

/-! ### Subgraphs -/

/-- The subgraphs of a draft are what the scan knows of them. -/
structure Follows (d : Draft) (n : Nesting) : Prop where
  inside : d.inside = n.inside
  opened : d.subgraphs.length = n.opened
  members : ∀ i g, d.subgraphs[i]? = some g → g.members = n.members i
  inside_lt : ∀ i ∈ n.inside, i < n.opened
  housed_lt : ∀ p ∈ n.housed, p.2 < n.opened

end Draft

namespace Nesting

theorem mem_members_iff {n : Nesting} {key : Text} {i : Nat} :
    key ∈ n.members i ↔ n.housed.get? key = some i := by
  rw [members, List.mem_map]
  constructor
  · rintro ⟨p, hp, rfl⟩
    obtain ⟨hfirst, hi⟩ := List.mem_filter.1 hp
    rw [Keyed.mem_firsts_iff.1 hfirst, ← of_decide_eq_true hi]
  · intro hget
    exact ⟨(key, i), List.mem_filter.2 ⟨Keyed.mem_firsts_iff.2 hget, by simp⟩, rfl⟩

/-- A mention inside a subgraph makes a member if it is the first one. -/
theorem members_step_node {n : Nesting} {m : Mention} {i : Nat} {inside : List Nat} (h : n.inside = i :: inside)
    (j : Nat) : (n.step (.node m)).members j =
      n.members j ++ if m.key ∉ n.housed.keys ∧ i = j then [m.key] else [] := by
  have hhoused : (n.step (.node m)).housed = n.housed ++ [(m.key, i)] := by simp [step, h]
  rw [members, hhoused, Keyed.firsts_concat, members]
  by_cases hkey : m.key ∈ n.housed.keys
  · rw [if_pos (by exact hkey), if_neg (by simp [hkey]), List.append_nil]
  · rw [if_neg (by exact hkey), List.filter_append, List.map_append]
    by_cases hij : i = j
    · simp [hkey, hij]
    · simp [hij]

end Nesting

namespace Draft.Follows

variable {d : Draft} {n : Nesting}

/-- A node is listed if and only if it has been mentioned inside a subgraph. -/
theorem any_contains_iff (h : d.Follows n) {key : Text} :
    d.subgraphs.any (fun g => g.members.contains key) = true ↔ key ∈ n.housed.keys := by
  rw [List.any_eq_true]
  constructor
  · rintro ⟨g, hg, hkey⟩
    obtain ⟨i, hi⟩ := List.mem_iff_getElem?.1 hg
    rw [List.contains_iff_mem, h.members i g hi, Nesting.mem_members_iff] at hkey
    exact Keyed.mem_keys_iff.2 ⟨i, hkey⟩
  · intro hkey
    obtain ⟨i, hget⟩ := Keyed.mem_keys_iff.1 hkey
    have hlt : i < d.subgraphs.length := by
      rw [h.opened]
      exact h.housed_lt _ (Keyed.mem_of_get? hget)
    refine ⟨d.subgraphs[i], List.getElem_mem hlt, ?_⟩
    rw [List.contains_iff_mem, h.members i _ (List.getElem?_eq_getElem hlt)]
    exact Nesting.mem_members_iff.2 hget

private theorem enlist (h : d.Follows n) (m : Mention) : (d.enlist m.key).Follows (n.step (.node m)) := by
  cases hin : n.inside with
  | nil =>
    -- outside all subgraphs a mention is not noted, and no subgraph lists the node
    have hhoused : n.housed ++ (n.inside.head?.map fun i => (m.key, i)).toList = n.housed := by
      rw [hin]
      exact List.append_nil _
    rw [Nesting.step, hhoused, Draft.enlist, h.inside, hin]
    exact ⟨h.inside.trans hin, h.opened, h.members, by simp, h.housed_lt⟩
  | cons i inside =>
    have hi : i < n.opened := h.inside_lt i (by rw [hin]; exact List.mem_cons_self)
    have hhoused : ∀ p ∈ (n.step (.node m)).housed, p.2 < n.opened := by
      rw [Nesting.step, hin]
      intro p hp
      rcases List.mem_append.1 hp with hp | hp
      · exact h.housed_lt p hp
      · rw [List.mem_singleton.1 hp]
        exact hi
    unfold Draft.enlist
    rw [h.inside, hin]
    dsimp only
    by_cases hkey : m.key ∈ n.housed.keys
    · -- the node has its home already
      rw [if_pos (h.any_contains_iff.2 hkey)]
      refine ⟨h.inside, h.opened, ?_, h.inside_lt, hhoused⟩
      intro j g hg
      rw [h.members j g hg, Nesting.members_step_node hin, if_neg (by simp [hkey]), List.append_nil]
    · -- the innermost subgraph gets a new member, the others stay as they are
      rw [if_neg (fun hany => hkey (h.any_contains_iff.1 hany))]
      refine ⟨hin.symm, (List.length_modify _ _ _).trans h.opened, ?_, h.inside_lt, hhoused⟩
      intro j g hg
      rw [List.getElem?_modify] at hg
      obtain ⟨g', hg', rfl⟩ := Option.map_eq_some_iff.1 hg
      rw [Nesting.members_step_node hin, ← h.members j g' hg']
      by_cases hij : i = j
      · simp [hij, hkey]
      · simp [hij]

private theorem mention (h : d.Follows n) (m : Mention) : (d.mention m).Follows (n.step (.node m)) := by
  refine enlist (d := { d with nodes := _ }) ?_ m
  exact ⟨h.inside, h.opened, h.members, h.inside_lt, h.housed_lt⟩

private theorem join (h : d.Follows n) (source : Text) (links : List (Link × Mention)) :
    (d.join source links).Follows (((links.map Prod.snd).map Role.node).foldl Nesting.step n) := by
  induction links generalizing d n source with
  | nil => exact h
  | cons l links ih =>
    obtain ⟨l, m⟩ := l
    have hm := h.mention m
    exact ih (d := { d.mention m with edges := (d.mention m).edges ++ [⟨source, m.key, l⟩] })
      ⟨hm.inside, hm.opened, hm.members, hm.inside_lt, hm.housed_lt⟩ m.key

private theorem openNew (h : d.Follows n) (title : Text) (direction : Option Direction) (o : Opening) :
    (d.add (.opening title direction o)).Follows (n.step .opening) := by
  have hnone : n.members n.opened = [] := by
    rw [Nesting.members, List.map_eq_nil_iff, List.filter_eq_nil_iff]
    intro p hp
    have := h.housed_lt p (Keyed.mem_of_mem_firsts hp)
    simp only [decide_eq_true_eq]
    omega
  refine ⟨?_, ?_, ?_, ?_, ?_⟩
  · show d.subgraphs.length :: d.inside = n.opened :: n.inside
    rw [h.opened, h.inside]
  · show (d.subgraphs ++ [_]).length = n.opened + 1
    rw [List.length_append, h.opened, List.length_singleton]
  · intro i g hg
    have hlength := h.opened
    rw [Draft.add, List.getElem?_append] at hg
    split at hg
    · exact h.members i g hg
    · -- the new subgraph is empty, and nobody has been mentioned in it
      have hnew : g = ⟨title, [], direction⟩ := List.mem_singleton.1 (List.mem_of_getElem? hg)
      have hi : i = n.opened := by
        have hlast := (List.getElem?_eq_some_iff.1 hg).1
        rw [List.length_singleton] at hlast
        omega
      rw [hnew, hi]
      exact hnone.symm
  · intro i hi
    show i < n.opened + 1
    rcases List.mem_cons.1 hi with rfl | hi
    · omega
    · have := h.inside_lt i hi
      omega
  · intro p hp
    show p.2 < n.opened + 1
    have := h.housed_lt p hp
    omega

/-- A draft keeps following the scan when a statement is added. -/
theorem add (h : d.Follows n) (st : Statement) : (d.add st).Follows (st.scope.foldl Nesting.step n) := by
  cases st with
  | chain first links loose => exact (h.mention first).join first.key links
  | opening title direction o => exact h.openNew title direction o
  | closing place =>
    refine ⟨congrArg List.tail h.inside, h.opened, h.members, ?_, h.housed_lt⟩
    exact fun i hi => h.inside_lt i (List.mem_of_mem_tail hi)
  | skipped kind text place => exact h

end Draft.Follows

theorem Draft.follows_ofStatements (sts : List Statement) :
    (ofStatements sts).Follows (Role.nesting (sts.flatMap Statement.scope)) := by
  have hrun : ∀ (d : Draft) (n : Nesting), d.Follows n →
      (sts.foldl Draft.add d).Follows ((sts.flatMap Statement.scope).foldl Nesting.step n) := by
    induction sts with
    | nil => exact fun _ _ h => h
    | cons st sts ih =>
      intro d n h
      rw [List.foldl_cons, List.flatMap_cons, List.foldl_append]
      exact ih _ _ (h.add st)
  exact hrun {} {} ⟨rfl, rfl, by simp, by simp, by simp⟩

/-! ### Whole texts -/

/-- No other text has the id of a node. -/
private theorem Draft.id_eq_iff {d : Draft} {key k : Text} (hkey : key ∈ d.names) : d.id k = d.id key ↔ k = key := by
  constructor
  · -- a text that is no name would have the number behind the last one
    intro h
    have hidx : d.names.idxOf k = d.names.idxOf key := by simpa [Draft.id] using h
    have hk : k ∈ d.names := List.idxOf_lt_length_iff.1 (hidx ▸ List.idxOf_lt_length_of_mem hkey)
    exact Draft.id_inj hk hkey h
  · rintro rfl
    rfl

/-- The diagram of a text has the nodes and subgraphs that the scan finds in the tokens. -/
theorem scanned_of_read {stack : Stack} {s : Text} {d : Diagram} (h : (read stack s).outcome = .ok d) :
    d.Scanned (tokenize rule s).tokens := by
  have htidy := tidy_of_read h
  obtain ⟨-, -, rfl⟩ := read_eq_ok_iff_statements.1 h
  generalize tokenize rule s = cut at htidy ⊢
  have hscan : Flowchart.Scanned (document cut).2 (roles cut.tokens) := scanned_document cut
  have hfollows := Draft.follows_ofStatements (document cut).2
  have hlabels := Draft.labels_ofStatements (document cut).2
  have hnodes := Draft.nodes_ofStatements (document cut).2
  rw [← nesting_document] at hfollows
  rw [titles_document] at hlabels
  rw [← hscan.mentions] at hnodes
  have hnames := hscan.names
  -- what follows needs of the statements only that the draft agrees with the scan
  generalize Draft.ofStatements (document cut).2 = draft at *
  generalize cut.tokens = ts at *
  have hnodup : draft.names.Nodup := by
    rw [hnames]
    exact Role.nodup_names _
  have hid : draft.id = Role.id (roles ts) := by
    funext key
    rw [Draft.id, hnames]
    rfl
  have hlooks : draft.nodes = draft.names.map fun key => (key, Role.look (roles ts) key) := by
    apply Keyed.eq_map_keys hnodup
    intro key hkey
    have hmention : key ∈ (Role.mentions (roles ts)).map Mention.key := by
      rw [← Role.mem_names_iff, ← hnames]
      exact hkey
    rw [hnodes, get?_foldl_addTo, if_pos hmention]
    rfl
  have hmembers : ∀ i g, (draft.subgraphs.map (·.map draft.id))[i]? = some g →
      g.members = ((Role.nesting (roles ts)).members i).map draft.id := by
    intro i g hg
    rw [List.getElem?_map] at hg
    obtain ⟨g', hg', rfl⟩ := Option.map_eq_some_iff.1 hg
    rw [← hfollows.members i g' hg']
    rfl
  refine ⟨?_, htidy.ids, ?_, ?_, ?_, htidy.members, ?_, ?_⟩
  · rw [Draft.map_looks_toDiagram hnodup, hlooks, List.map_map, hnames, hid]
    rfl
  · rw [← hlabels, Draft.toDiagram, List.map_map]
    rfl
  · apply List.ext_getElem
    · simp [Draft.toDiagram, hfollows.opened]
    · intro i hi hi'
      rw [List.length_map] at hi
      rw [List.getElem_map, List.getElem_map, List.getElem_range, ← hid]
      exact hmembers i _ (List.getElem?_eq_getElem hi)
  · intro i g hg key hkey
    rw [← hnames] at hkey
    rw [hmembers i g hg, ← hid, Role.home?, ← Nesting.mem_members_iff, List.mem_map]
    constructor
    · rintro ⟨k, hk, heq⟩
      rwa [← (Draft.id_eq_iff hkey).1 heq]
    · exact fun hk => ⟨key, hk, rfl⟩
  · intro g hg id hmem
    rw [Diagram.node?_isSome]
    exact htidy.known id (List.mem_flatMap.2 ⟨g, hg, hmem⟩)
  · intro e he
    rw [Diagram.node?_isSome, Diagram.node?_isSome]
    exact htidy.edges e he

/-- A text in which nodes are mentioned before, inside and behind nested subgraphs, one of which stays open. -/
def officesText : Text :=
  "flowchart LR\nA --> B\nsubgraph outer\nsubgraph inner[The inner]\nB(round)\nend\nC --> A\nB\x7bagain\x7d\nend\nend\nsubgraph last\nD --> C".toList

/-- The chart of that text. -/
def offices : Diagram where
  direction := .leftToRight
  nodes := [
    { id := .minted 0, label := "A".toList, position := ⟨50, 50⟩ },
    { id := .minted 1, label := "again".toList, shape := .rhombus, position := ⟨230, 50⟩ },
    { id := .minted 2, label := "C".toList, position := ⟨410, 50⟩ },
    { id := .minted 3, label := "D".toList, position := ⟨590, 50⟩ }]
  edges := [
    { source := .minted 0, target := .minted 1 },
    { source := .minted 2, target := .minted 0 },
    { source := .minted 3, target := .minted 2 }]
  subgraphs := [
    { label := "outer".toList, members := [.minted 2, .minted 0] },
    { label := "The inner".toList, members := [.minted 1] },
    { label := "last".toList, members := [.minted 3] }]

theorem scanned_offices :
    (read {} officesText).outcome = .ok offices ∧ offices.Scanned (tokenize rule officesText).tokens := by
  have h := eq_ok_of_toOption (x := (read {} officesText).outcome) (a := offices) (by decide +kernel)
  exact ⟨h, scanned_of_read h⟩

end DiagramText.Flowchart

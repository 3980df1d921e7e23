import DiagramText.Proofs.Er.Lexing
import DiagramText.Proofs.Er.Parsed
import Mathlib.Data.List.DropRight
import Mathlib.Data.List.TakeWhile

/-!
# Putting entity-relationship texts together

A text that can be read says all that it says, whatever statement begins on a new line behind it: no reader looks past
the line break, unless it stands behind a colon that still has no label (`statements_append`, `document_append`).  So
two texts put together say what the two say one after the other, and their diagram is that of the first joined with
that of the second by name (`joins_of_read`).
-/

namespace DiagramText.Er

/-! ### Readers in front of a new line -/

/-- The tokens that are no breaks. -/
def content (ts : List (Token Kind)) : List (Token Kind) := ts.filter fun t => !t.kind.isBreak

/-- The tokens do not end in a colon, apart from breaks. -/
def Complete (ts : List (Token Kind)) : Prop := ∀ t ∈ (content ts).getLast?, t.kind ≠ .colon

/-- The tokens begin with the header or a name, apart from breaks, if there are any. -/
def Opens (ts : List (Token Kind)) : Prop :=
  ∀ t ∈ (content ts).head?, t.kind = .header ∨ ∃ name, t.kind = .word name

/-- Tokens on a new line, where a statement begins if there is anything at all. -/
structure Resumes (us : List (Token Kind)) : Prop where
  ends : breaks.Ends us
  opens : Opens us

section

variable {ts us : List (Token Kind)}

private theorem complete_of_suffix (h : Complete ts) (hs : us <:+ ts) : Complete us := by
  obtain ⟨before, rfl⟩ := hs
  intro t ht
  apply h t
  rw [content, List.filter_append, List.getLast?_append]
  rw [content] at ht
  rw [ht]
  rfl

private theorem skipBreaks_append_of_cons {t : Token Kind} {ts' : List (Token Kind)} (h : skipBreaks ts = t :: ts')
    (us : List (Token Kind)) : skipBreaks (ts ++ us) = t :: (ts' ++ us) := by
  rw [skipBreaks, skipTokens] at h ⊢
  rw [List.dropWhile_append, h]
  rfl

private theorem skipBreaks_append_of_nil (h : skipBreaks ts = []) (us : List (Token Kind)) :
    skipBreaks (ts ++ us) = skipBreaks us := by
  rw [skipBreaks, skipTokens] at h ⊢
  rw [List.dropWhile_append, h]
  rfl

private theorem skipBreaks_skipBreaks (ts : List (Token Kind)) : skipBreaks (skipBreaks ts) = skipBreaks ts :=
  List.dropWhile_idempotent _ _

/-- Behind breaks there is nothing, a header or a name. -/
@[elab_as_elim]
private theorem Opens.elim {motive : List (Token Kind) → Prop} (h : Opens us) (nil : motive [])
    (header : ∀ p us', motive (⟨.header, p⟩ :: us')) (word : ∀ name p us', motive (⟨.word name, p⟩ :: us')) :
    motive (skipBreaks us) := by
  rcases hus : skipBreaks us with _ | ⟨⟨k, p⟩, us'⟩
  · exact nil
  · have hhead : ⟨k, p⟩ ∈ (content us).head? := by
      rw [content, List.head?_filter, List.find?_not_eq_head?_dropWhile]
      exact congrArg List.head? hus
    obtain rfl | ⟨name, rfl⟩ := h _ hhead
    · exact header p us'
    · exact word name p us'

/-- A colon that nothing but breaks follows is the end of the tokens. -/
private theorem not_complete_of_colon {p : Place} {ts' : List (Token Kind)} (h : skipBreaks ts = ⟨.colon, p⟩ :: ts')
    (h' : skipBreaks ts' = []) : ¬ Complete ts := by
  intro hcomplete
  have hsuffix : ⟨.colon, p⟩ :: ts' <:+ ts := h ▸ skipTokens_suffix Kind.isBreak ts
  have hnil : content ts' = [] := by
    rw [content, List.filter_eq_nil_iff]
    intro t ht
    simpa using List.dropWhile_eq_nil_iff.1 h' t ht
  refine complete_of_suffix hcomplete hsuffix ⟨.colon, p⟩ ?_ rfl
  rw [content, List.filter_cons_of_pos rfl]
  rw [content] at hnil
  rw [hnil]
  rfl

private theorem readKeys_append (h : breaks.Ends us) (ts : List (Token Kind)) :
    readKeys (ts ++ us) = ((readKeys ts).1, (readKeys ts).2 ++ us) := by
  have hends : readKeys us = ([], us) := h.elim rfl fun _ _ => rfl
  fun_induction readKeys ts with
  | case1 k w p ts ih => rw [List.cons_append, readKeys, ih]
  | case2 ts hkey =>
    rcases ts with _ | ⟨⟨k, p⟩, ts⟩
    · exact hends
    · cases k with
      | key k w => exact absurd rfl (hkey k w p ts)
      | _ => rfl

private theorem readComment_append (h : breaks.Ends us) (ts : List (Token Kind)) :
    readComment (ts ++ us) = ((readComment ts).1, (readComment ts).2 ++ us) := by
  have hends : readComment us = (none, us) := h.elim rfl fun _ _ => rfl
  rcases ts with _ | ⟨⟨k, p⟩, ts⟩
  · exact hends
  · cases k <;> rfl

private theorem readAttribute_append (h : breaks.Ends us) (type name : Text) (ts : List (Token Kind)) :
    readAttribute type name (ts ++ us) = ((readAttribute type name ts).1, (readAttribute type name ts).2 ++ us) := by
  simp only [readAttribute, readKeys_append h, readComment_append h]

/-- A block that is closed is read as it is. -/
private theorem readBlock_append (h : breaks.Ends us) (hclosed : (readBlock ts).closed = true) :
    readBlock (ts ++ us) = { readBlock ts with rest := (readBlock ts).rest ++ us } := by
  fun_induction readBlock ts with
  | case1 => cases hclosed
  | case2 p ts => rw [List.cons_append, readBlock]
  | case3 type p name q ts read ih =>
    rw [List.cons_append, List.cons_append, readBlock, readAttribute_append h, ih hclosed]
    rfl
  | case4 type p ts hname ih =>
    -- the line break in front of `us` keeps its first word from being the name
    have hname' : ∀ name q vs, ts ++ us ≠ ⟨.word name, q⟩ :: vs := by
      rintro name q vs hts
      rcases ts with _ | ⟨t, ts⟩
      · cases h _ (congrArg List.head? hts)
      · cases hts
        exact hname name q _ rfl
    rw [List.cons_append, readBlock, ih hclosed]
    · rfl
    · exact hname'
  | case5 t ts h₁ h₂ h₃ ih =>
    obtain ⟨k, p⟩ := t
    rw [List.cons_append]
    cases k with
    | closeBrace => exact absurd rfl (h₁ p)
    | word type => exact absurd rfl (h₃ type p)
    | _ => rw [readBlock] <;> first | exact ih hclosed | simp

private theorem readLabel_append (h : Resumes us) (hcomplete : Complete ts) :
    (readLabel (ts ++ us)).1 = (readLabel ts).1 ∧
      skipBreaks (readLabel (ts ++ us)).2 = skipBreaks ((readLabel ts).2 ++ us) := by
  unfold readLabel
  rcases hts : skipBreaks ts with _ | ⟨⟨k, p⟩, ts'⟩
  · rw [skipBreaks_append_of_nil hts, List.nil_append, ← skipBreaks_skipBreaks us]
    exact h.opens.elim ⟨rfl, rfl⟩ (fun _ _ => ⟨rfl, rfl⟩) fun _ _ _ => ⟨rfl, rfl⟩
  · rw [skipBreaks_append_of_cons hts]
    cases k with
    | colon =>
      dsimp only
      rcases hts' : skipBreaks ts' with _ | ⟨⟨k, q⟩, ts''⟩
      · -- only a colon at the very end would take its label from what follows
        exact absurd hcomplete (not_complete_of_colon hts hts')
      · rw [skipBreaks_append_of_cons hts']
        cases k <;> exact ⟨rfl, rfl⟩
    | _ => exact ⟨rfl, rfl⟩

/-- A statement without errors is read as it is, and what is left goes on with what follows. -/
private theorem readStatement_append (name : Text) (h : Resumes us) (hcomplete : Complete ts)
    (herrors : (readStatement name ts).1.errors {} = []) :
    (readStatement name (ts ++ us)).1 = (readStatement name ts).1 ∧
      skipBreaks (readStatement name (ts ++ us)).2 = skipBreaks ((readStatement name ts).2 ++ us) := by
  unfold readStatement at herrors ⊢
  rcases hts : skipBreaks ts with _ | ⟨⟨k, p⟩, ts'⟩
  · rw [skipBreaks_append_of_nil hts, List.nil_append, ← skipBreaks_skipBreaks us]
    exact h.opens.elim ⟨rfl, rfl⟩ (fun _ _ => ⟨rfl, rfl⟩) fun _ _ _ => ⟨rfl, rfl⟩
  · rw [skipBreaks_append_of_cons hts]
    rw [hts] at herrors
    have hsuffix : ts' <:+ ts := suffix_of_skipTokens hts
    cases k with
    | openBrace =>
      -- an open block would go on into `us`, but it is an error
      have hclosed : (readBlock ts').closed = true := by
        cases hblock : (readBlock ts').closed with
        | true => rfl
        | false => simp [Statement.errors, hblock] at herrors
      simp only [readBlock_append h.ends hclosed, true_and]
    | relation symbol =>
      dsimp only at herrors ⊢
      rcases hts' : skipBreaks ts' with _ | ⟨⟨k, q⟩, ts''⟩
      · rw [hts'] at herrors
        cases herrors
      · rw [hts'] at herrors
        rw [skipBreaks_append_of_cons hts']
        cases k with
        | word target =>
          have hsuffix' := (suffix_of_skipTokens hts').trans hsuffix
          obtain ⟨hlabel, hrest⟩ := readLabel_append h (complete_of_suffix hcomplete hsuffix')
          dsimp only
          rw [hlabel]
          exact ⟨rfl, hrest⟩
        | _ => cases herrors
    | _ => exact ⟨rfl, rfl⟩

/-- Statements without errors are read as they are, whatever statement begins on the next line. -/
theorem statements_append (h : Resumes us) (hcomplete : Complete ts)
    (herrors : ∀ st ∈ statements ts, st.errors {} = []) :
    statements (ts ++ us) = statements ts ++ statements us := by
  fun_induction statements ts with
  | case1 => rfl
  | case2 p ts ih =>
    rw [List.cons_append, statements]
    exact ih (complete_of_suffix hcomplete (List.suffix_cons _ _)) herrors
  | case3 w p ts ih =>
    rw [List.cons_append, statements]
    exact ih (complete_of_suffix hcomplete (List.suffix_cons _ _)) herrors
  | case4 name p ts read ih =>
    have hts := complete_of_suffix hcomplete (List.suffix_cons _ _)
    obtain ⟨hstatement, hrest⟩ := readStatement_append name h hts (herrors _ List.mem_cons_self)
    rw [List.cons_append, statements, hstatement, ← statements_skipBreaks (readStatement name (ts ++ us)).2, hrest,
      statements_skipBreaks, ih (complete_of_suffix hts (readStatement_suffix name ts)) fun st hst =>
        herrors st (List.mem_cons_of_mem _ hst)]
    rfl
  | case5 k p ts h₁ h₂ h₃ ih =>
    have hts := complete_of_suffix hcomplete (List.suffix_cons _ _)
    have hrest := ih hts fun st hst => herrors st (List.mem_cons_of_mem _ hst)
    rw [List.cons_append]
    cases k with
    | newline => exact absurd rfl h₁
    | comment w => exact absurd rfl (h₂ w)
    | word name => exact absurd rfl (h₃ name)
    | _ => rw [statements, hrest] <;> first | rfl | simp

/-- A header that is not the first token is skipped. -/
private theorem statements_eq_document (ts : List (Token Kind)) : statements ts = document ts ∨
    ∃ kind place, statements ts = .skipped kind place :: document ts := by
  rw [← statements_skipBreaks, document]
  rcases skipBreaks ts with _ | ⟨⟨k, p⟩, ts'⟩
  · exact Or.inl rfl
  · cases k with
    | header =>
      refine Or.inr ⟨Kind.header.name, p, ?_⟩
      rw [statements] <;> simp
    | _ => exact Or.inl rfl

/-- A text without errors says what it says, and then what begins on the next line is said. -/
theorem document_append (h : Resumes us) (hcomplete : Complete ts) (herrors : ∀ st ∈ document ts, st.errors {} = []) :
    document (ts ++ us) = document ts ++ document us ∨
      ∃ kind place, document (ts ++ us) = document ts ++ .skipped kind place :: document us := by
  have hgoes : ∀ {ts'}, ts' <:+ ts → (∀ st ∈ statements ts', st.errors {} = []) →
      statements (ts' ++ us) = statements ts' ++ document us ∨
        ∃ kind place, statements (ts' ++ us) = statements ts' ++ .skipped kind place :: document us := by
    intro ts' hs herrors
    rw [statements_append h (complete_of_suffix hcomplete hs) herrors]
    obtain hus | ⟨kind, place, hus⟩ := statements_eq_document us
    · exact Or.inl (by rw [hus])
    · exact Or.inr ⟨kind, place, by rw [hus]⟩
  rw [document] at herrors ⊢
  rw [document]
  rcases hts : skipBreaks ts with _ | ⟨⟨k, p⟩, ts'⟩
  · left
    rw [skipBreaks_append_of_nil hts]
    show document us = statements [] ++ document us
    rw [statements, List.nil_append]
  · rw [hts] at herrors
    rw [skipBreaks_append_of_cons hts]
    cases k with
    | header => exact hgoes (suffix_of_skipTokens hts) herrors
    | _ => exact hgoes (hts ▸ skipTokens_suffix Kind.isBreak ts) herrors

end

/-! ### Merging two diagrams -/

/-- The names of the entities in order, each with its attributes. -/
def Diagram.columns (d : Diagram) : Keyed Text (List Attribute) := d.entities.map fun e => (e.name, e.attributes)

/-- `m` is `d` joined with `d'` by name: each entity of `d` has the attributes of its namesake in `d'` behind its own,
the new entities of `d'` and its relations come last, and everything is laid out anew. -/
structure Diagram.Joins (m d d' : Diagram) : Prop where
  ids : (m.entities.map Entity.id).Nodup
  columns : m.columns = d.columns.map (fun c => (c.1, c.2 ++ (d'.columns.get? c.1).getD [])) ++
    d'.columns.filter (·.1 ∉ d.columns.keys)
  positions : ∀ (i : Nat) (e : Entity), m.entities[i]? = some e → e.position = Grid.entities.position i
  relations : m.relations.map m.resolve? = d.relations.map d.resolve? ++ d'.relations.map d'.resolve?
  resolved : ∀ r ∈ m.relations, (m.resolve? r).isSome

namespace Schema

theorem columns_toDiagram (s : Schema) : s.toDiagram.columns = s.entities := by
  unfold Diagram.columns toDiagram
  refine Eq.trans ?_ (List.map_id s.entities)
  exact Keyed.map_mapIdx (g := fun e : Entity => (e.name, e.attributes)) (h := id) (fun _ _ => rfl) s.entities

private theorem entities_ofStatements (sts : List Statement) :
    (ofStatements sts).entities = (ofStatements sts).names.map fun n => (n, (ofStatements sts).attributes n) := by
  apply Keyed.eq_map_keys (nodup_names_ofStatements sts)
  intro n hn
  obtain ⟨as, has⟩ := Keyed.mem_keys_iff.1 hn
  rw [attributes, has]
  rfl

private theorem attributes_of_not_mem {s : Schema} {n : Text} (h : n ∉ s.names) : s.attributes n = [] := by
  rw [attributes, Keyed.get?_eq_none_iff.2 h]
  rfl

private theorem entities_append (sts sts' : List Statement) : (ofStatements (sts ++ sts')).entities =
    (ofStatements sts).entities.map (fun c => (c.1, c.2 ++ (ofStatements sts').attributes c.1)) ++
      (ofStatements sts').entities.filter (·.1 ∉ (ofStatements sts).names) := by
  have hattributes : ∀ n, (ofStatements (sts ++ sts')).attributes n =
      (ofStatements sts).attributes n ++ (ofStatements sts').attributes n := by
    intro n
    simp only [attributes_ofStatements, List.flatMap_append]
  have hnew : ∀ n ∈ (ofStatements sts').names.filter (· ∉ (ofStatements sts).names),
      (n, (ofStatements (sts ++ sts')).attributes n) = (n, (ofStatements sts').attributes n) := by
    intro n hn
    have hnot : n ∉ (ofStatements sts).names := by simpa using (List.mem_filter.1 hn).2
    rw [hattributes, attributes_of_not_mem hnot, List.nil_append]
  rw [entities_ofStatements (sts ++ sts'), names_ofStatements_append, List.map_append, List.map_congr_left hnew]
  congr 1
  · rw [entities_ofStatements sts, List.map_map]
    exact List.map_congr_left fun n _ => congrArg (Prod.mk n) (hattributes n)
  · rw [entities_ofStatements sts', List.filter_map]
    rfl

/-- What statements say one after the other is what the first say joined with what the others say. -/
theorem joins_append (sts sts' : List Statement) :
    (ofStatements (sts ++ sts')).toDiagram.Joins (ofStatements sts).toDiagram (ofStatements sts').toDiagram where
  ids := nodup_ids_toDiagram _
  columns := by
    simp only [columns_toDiagram]
    exact entities_append sts sts'
  positions i e he := by
    rw [toDiagram, List.getElem?_mapIdx] at he
    obtain ⟨c, -, rfl⟩ := Option.map_eq_some_iff.1 he
    rfl
  relations := by
    have hresolve : ∀ sts, (ofStatements sts).toDiagram.relations.map (ofStatements sts).toDiagram.resolve? =
        (sts.filterMap Statement.relation?).map some := fun sts => by
      rw [resolve?_toDiagram fun r hr => ends_mem_names hr, relations_ofStatements]
    rw [hresolve, hresolve, hresolve, List.filterMap_append, List.map_append]
  resolved := resolve?_isSome_toDiagram fun r hr => ends_mem_names hr

end Schema

/-! ### Texts one after the other -/

section

variable {ts : List (Token Kind)} (f : Place → Place)

private theorem content_map_move (ts : List (Token Kind)) :
    content (ts.map (Token.move f)) = (content ts).map (Token.move f) := by
  rw [content, List.filter_map]
  rfl

private theorem complete_map_move (h : Complete ts) : Complete (ts.map (Token.move f)) := by
  intro t ht
  rw [content_map_move, List.getLast?_map] at ht
  obtain ⟨u, hu, rfl⟩ := Option.map_eq_some_iff.1 ht
  exact h u hu

private theorem opens_map_move (h : Opens ts) : Opens (ts.map (Token.move f)) := by
  intro t ht
  rw [content_map_move, List.head?_map] at ht
  obtain ⟨u, hu, rfl⟩ := Option.map_eq_some_iff.1 ht
  exact h u hu

end

/-- Behind a text without errors there are only the errors of what follows, and both are said one after the other. -/
private theorem said_append {ts us : List (Token Kind)} (h : Resumes us) (hcomplete : Complete ts)
    (herrors : ∀ st ∈ document ts, st.errors {} = []) :
    ((∀ st ∈ document (ts ++ us), st.errors {} = []) ↔ ∀ st ∈ document us, st.errors {} = []) ∧
      Schema.ofStatements (document (ts ++ us)) = Schema.ofStatements (document ts ++ document us) := by
  obtain hsame | ⟨kind, place, hskipped⟩ := document_append h hcomplete herrors
  · rw [hsame, List.forall_mem_append]
    exact ⟨and_iff_right herrors, rfl⟩
  · rw [hskipped, List.forall_mem_append, List.forall_mem_cons]
    refine ⟨(and_iff_right herrors).trans (and_iff_right rfl), ?_⟩
    simp only [Schema.ofStatements, List.foldl_append, List.foldl_cons, Schema.add]

/-- A text that can be read, followed on a new line by one that opens a statement, can be read if and only if the other
can, and its diagram is that of the first joined with that of the other by name. -/
theorem joins_of_read {s t : Text} {d : Diagram} (h : (read s).outcome = .ok d)
    (hcomplete : Complete (tokenize rule s).tokens) (hopens : Opens (tokenize rule t).tokens) :
    ((∃ m, (read (s ++ '\n' :: t)).outcome = .ok m) ↔ ∃ d', (read t).outcome = .ok d') ∧
      ∀ m d', (read (s ++ '\n' :: t)).outcome = .ok m → (read t).outcome = .ok d' → m.Joins d d' := by
  have hunplaced : ∀ s, (tokenize rule s).tokens.map (Token.move fun _ => {}) = unplaced (kinds rule s) := fun s => by
    rw [map_move_eq_unplaced, map_kind_tokenize]
  have hcomplete := hunplaced s ▸ complete_map_move (fun _ => {}) hcomplete
  have hopens := hunplaced t ▸ opens_map_move (fun _ => {}) hopens
  have hresumes : Resumes (⟨.newline, {}⟩ :: unplaced (kinds rule t)) :=
    ⟨fun k hk => by cases hk; rfl, hopens⟩
  obtain ⟨herrors, rfl⟩ := read_eq_ok_iff.1 h
  obtain ⟨hiff, hschema⟩ := said_append hresumes hcomplete herrors
  have hbreak : document (⟨.newline, {}⟩ :: unplaced (kinds rule t)) = document (unplaced (kinds rule t)) := rfl
  simp only [read_eq_ok_iff, rule_lineLocal.kinds_append_break, unplaced_append, unplaced_cons, hschema, hiff, hbreak]
  refine ⟨by simp, ?_⟩
  rintro m d' ⟨-, rfl⟩ ⟨-, rfl⟩
  exact Schema.joins_append _ _

/-- A shop, the last words of which stand in front of a comment. -/
def shop : Text := "erDiagram\norder ||--|\x7b item : made\norder \x7b int id PK \x7d\nitem %% : and".toList

/-- More about the shop: a header of its own, a namesake and an entity that is new. -/
def stock : Text := "%% stock\nerDiagram order \x7b\n int total \"sum\"\n\x7d shelf \x7do..|| item :".toList

theorem joins_of_read_shop : ∃ d d' m, (read shop).outcome = .ok d ∧ (read stock).outcome = .ok d' ∧
    Complete (tokenize rule shop).tokens ∧ Opens (tokenize rule stock).tokens ∧
    (read (shop ++ '\n' :: stock)).outcome = .ok m ∧ m.Joins d d' := by
  have hreads : ∀ s ∈ [shop, stock], ∃ d, (read s).outcome = .ok d := by
    intro s hs
    obtain ⟨d, hd⟩ : ∃ d, (read s).outcome.toOption = some d :=
      Option.isSome_iff_exists.1 (by revert s; decide +kernel)
    exact ⟨d, eq_ok_of_toOption hd⟩
  obtain ⟨d, hd⟩ := hreads shop (by simp)
  obtain ⟨d', hd'⟩ := hreads stock (by simp)
  have hcomplete : Complete (tokenize rule shop).tokens := by
    unfold Complete
    decide +kernel
  have hopens : Opens (tokenize rule stock).tokens := by
    have hheader : ∀ t ∈ (content (tokenize rule stock).tokens).head?, t.kind = .header := by decide +kernel
    exact fun t ht => Or.inl (hheader t ht)
  obtain ⟨hiff, hjoins⟩ := joins_of_read hd hcomplete hopens
  obtain ⟨m, hm⟩ := hiff.2 ⟨d', hd'⟩
  exact ⟨d, d', m, hd, hd', hcomplete, hopens, hm, hjoins m d' hm hd'⟩

end DiagramText.Er

import DiagramText.Diagram
import DiagramText.Proofs.Er.Lines
import DiagramText.Proofs.Er.Merging
import DiagramText.Proofs.Er.Places

/-!
# Reading back what entity-relationship diagrams are written as

The text of a diagram whose names are plain words is read back as the diagram merged by name (`read_write_mergeOf`):
entities of one name become one, and relations with an unknown end are gone.  Line breaks mean little to the reader, so
the tokens of an element are read on into the next one.  They read as statements of their own (`Reads`) because every
element begins with a name on a new line.
-/

namespace DiagramText.Er

/-- `m` is `d` merged by name: each name is one entity with the attributes of all entities of that name, and the
relations are those with known ends, in order and by name. -/
structure Diagram.MergeOf (m d : Diagram) : Prop where
  ids : (m.entities.map Entity.id).Nodup
  names : (m.entities.map Entity.name).Nodup
  mem_names : ∀ n, n ∈ m.entities.map Entity.name ↔ n ∈ d.entities.map Entity.name
  attributes : ∀ e ∈ m.entities,
    e.attributes = (d.entities.filter (·.name = e.name)).flatMap fun x => x.attributes.map Attribute.normal
  relations : m.relations.map m.resolve? = (d.relations.filterMap d.resolve?).map fun r => some r.normal

/-! ### Tokens that read by themselves -/

/-- No tokens, or a line that begins with a word. -/
inductive Fresh : List Kind → Prop
  | nil : Fresh []
  | line (w : Text) (ks : List Kind) : Fresh (.newline :: .word w :: ks)

theorem Fresh.append {ks ks' : List Kind} (h : Fresh ks) (h' : Fresh ks') : Fresh (ks ++ ks') := by
  cases h with
  | nil => exact h'
  | line w r => exact Fresh.line w (r ++ ks')

/-- Tokens that read as the statements, whatever begins on the next line. -/
structure Reads (ks : List Kind) (sts : List Statement) : Prop where
  fresh : Fresh ks
  statements : ∀ rest, Fresh rest → statements (unplaced (ks ++ rest)) = sts ++ statements (unplaced rest)

namespace Reads

theorem nil : Reads [] [] := ⟨Fresh.nil, fun _ _ => rfl⟩

theorem append {ks ks' : List Kind} {sts sts' : List Statement} (h : Reads ks sts) (h' : Reads ks' sts') :
    Reads (ks ++ ks') (sts ++ sts') := by
  refine ⟨h.fresh.append h'.fresh, ?_⟩
  intro rest hrest
  rw [List.append_assoc, h.statements _ (h'.fresh.append hrest), h'.statements rest hrest, List.append_assoc]

theorem flatMap {α : Type} {l : List α} {f : α → List Kind} {g : α → List Statement}
    (h : ∀ a ∈ l, Reads (f a) (g a)) : Reads (l.flatMap f) (l.flatMap g) := by
  induction l with
  | nil => exact nil
  | cons a l ih => exact (h a (by simp)).append (ih fun b hb => h b (by simp [hb]))

end Reads

private theorem readLabel_of_fresh {ks : List Kind} (h : Fresh ks) :
    readLabel (unplaced ks) = (none, skipBreaks (unplaced ks)) := by
  cases h <;> rfl

/-- What is read of the label behind a relation; the rest says what it says on a line of its own. -/
private theorem readLabel_labelKinds (label : Option Text) {rest : List Kind} (h : Fresh rest) :
    ∃ ts, readLabel (unplaced (labelKinds label ++ rest)) = (label, ts) ∧
      statements ts = statements (unplaced rest) := by
  cases label with
  | none => exact ⟨_, readLabel_of_fresh h, statements_skipBreaks _⟩
  | some label =>
    refine ⟨unplaced rest, ?_, rfl⟩
    show readLabel (unplaced (.colon :: labelKind label :: rest)) = _
    unfold labelKind
    cases isBareLabel label <;> rfl

theorem reads_relation (r : Relation Text) : Reads (.newline :: r.kinds) [.relation r.normal] := by
  refine ⟨Fresh.line _ _, ?_⟩
  intro rest hrest
  obtain ⟨ts, hlabel, hts⟩ := readLabel_labelKinds r.normal.label hrest
  have hread : readStatement r.source (unplaced (.relation (encodeSymbol r.sourceCardinality r.targetCardinality
      r.identifying) :: .word r.target :: (labelKinds r.normal.label ++ rest))) = (.relation r.normal, ts) := by
    simp only [unplaced_cons, readStatement, skipBreaks, skipTokens, List.dropWhile, Kind.isBreak, hlabel,
      decodeSymbol_encodeSymbol]
    rfl
  rw [Relation.kinds]
  simp only [List.cons_append, List.nil_append]
  rw [unplaced_cons, statements, unplaced_cons, statements]
  simp only [hread, hts]

/-! ### Blocks -/

private theorem readKeys_kinds (ks : List Key) {rest : List Kind} (h : ∀ k w r, rest ≠ .key k w :: r) :
    readKeys (unplaced (ks.map (fun k => .key k k.word) ++ rest)) = (ks, unplaced rest) := by
  induction ks with
  | nil =>
    cases rest with
    | nil => rfl
    | cons k r =>
      cases k with
      | key k w => exact absurd rfl (h k w r)
      | _ => rfl
  | cons k ks ih =>
    rw [List.map_cons, List.cons_append, unplaced_cons, readKeys, ih]

theorem readAttribute_kinds (a : Attribute) (rest : List Kind) :
    readAttribute a.type a.name (unplaced (a.keys.map (fun k => .key k k.word) ++
      a.normal.comment.toList.map .string ++ .newline :: rest)) = (a.normal, unplaced (.newline :: rest)) := by
  have hcontains : a.keys.contains .primary = a.isPrimaryKey ∧ a.keys.contains .foreign = a.isForeignKey ∧
      a.keys.contains .unique = (a.isUnique && !a.isPrimaryKey) := by
    unfold Attribute.keys
    cases a.isPrimaryKey <;> cases a.isForeignKey <;> cases a.isUnique <;> exact ⟨rfl, rfl, rfl⟩
  have hcomment : readComment (unplaced (a.normal.comment.toList.map .string ++ .newline :: rest)) =
      (a.normal.comment, unplaced (.newline :: rest)) := by
    cases a.normal.comment <;> rfl
  have hstop : ∀ k w r, a.normal.comment.toList.map Kind.string ++ .newline :: rest ≠ .key k w :: r := by
    intro k w r
    cases a.normal.comment <;> simp
  unfold readAttribute
  simp only [List.append_assoc, readKeys_kinds _ hstop, hcomment, hcontains]
  rfl

theorem readBlock_kinds (as : List Attribute) (rest : List Kind) :
    readBlock (unplaced (as.flatMap (fun a => .newline :: a.kinds) ++ .newline :: .closeBrace :: rest)) =
      ⟨as.map fun a => .column a.normal, true, unplaced rest⟩ := by
  induction as with
  | nil =>
    simp only [List.flatMap_nil, List.nil_append, unplaced_cons]
    rw [readBlock, readBlock]
    · rfl
    all_goals simp
  | cons a as ih =>
    obtain ⟨r, hr⟩ : ∃ r, as.flatMap (fun a => .newline :: a.kinds) ++ Kind.newline :: .closeBrace :: rest =
        .newline :: r := by
      cases as with
      | nil => exact ⟨_, rfl⟩
      | cons b bs => exact ⟨_, rfl⟩
    have hread := readAttribute_kinds a r
    rw [hr] at ih
    rw [List.flatMap_cons, List.append_assoc, hr, Attribute.kinds]
    simp only [List.cons_append, List.nil_append]
    rw [unplaced_cons, readBlock, unplaced_cons, unplaced_cons, readBlock]
    · simp only [hread, ih]
      rfl
    all_goals simp

/-- The statements that an entity is read back as. -/
def Entity.statements (related : List Id) (e : Entity) : List Statement :=
  if e.attributes ≠ [] then [.block e.name (e.attributes.map fun a => .column a.normal) true]
  else if e.id ∈ related then []
  else [.mention e.name]

theorem reads_entity (related : List Id) (e : Entity) :
    Reads (e.kinds related) (e.statements related) := by
  unfold Entity.kinds Entity.statements
  split
  · refine ⟨Fresh.line _ _, ?_⟩
    intro rest hrest
    simp only [List.cons_append, List.append_assoc, List.nil_append]
    rw [unplaced_cons, statements, unplaced_cons, statements]
    have hread := readBlock_kinds e.attributes rest
    simp only [unplaced_cons, readStatement, skipBreaks, skipTokens, List.dropWhile, Kind.isBreak, hread]
  · split
    · exact Reads.nil
    · refine ⟨Fresh.line _ _, ?_⟩
      intro rest hrest
      simp only [List.cons_append, List.nil_append]
      rw [unplaced_cons, statements, unplaced_cons, statements]
      have hread : readStatement e.name (unplaced rest) = (.mention e.name, skipBreaks (unplaced rest)) := by
        cases hrest <;> rfl
      simp only [hread, statements_skipBreaks]

/-! ### The whole text -/

/-- The statements that a diagram is read back as. -/
def Diagram.statements (d : Diagram) : List Statement :=
  (d.relations.filterMap d.resolve?).map (fun r => .relation r.normal) ++ d.sorted.flatMap (·.statements d.related)

theorem document_write {d : Diagram} (h : d.Writable) (size : Int) :
    document (unplaced (kinds rule (d.write size))) = d.statements := by
  have hreads : Reads ((d.relations.filterMap d.resolve?).flatMap (fun r => .newline :: r.kinds) ++
      d.sorted.flatMap (·.kinds d.related)) d.statements := by
    unfold Diagram.statements
    rw [← List.flatMap_singleton' (List.map _ _), List.flatMap_map]
    exact (Reads.flatMap fun r _ => reads_relation r).append (Reads.flatMap fun e _ => reads_entity d.related e)
  have hall := hreads.statements [] Fresh.nil
  rw [List.append_nil, unplaced_nil, Er.statements, List.append_nil] at hall
  rw [kinds_write h, ← hall]
  rfl

/-! ### What the statements of a diagram say -/

/-- An entity is read back as a block of its attributes or as its name. -/
private theorem Entity.mem_statements {related : List Id} {e : Entity} {st : Statement}
    (h : st ∈ e.statements related) :
    st = .block e.name (e.attributes.map fun a => .column a.normal) true ∨ st = .mention e.name := by
  unfold Entity.statements at h
  split at h
  · exact Or.inl (List.mem_singleton.1 h)
  · split at h
    · cases h
    · exact Or.inr (List.mem_singleton.1 h)

private theorem relations_statements (d : Diagram) :
    d.statements.filterMap Statement.relation? = (d.relations.filterMap d.resolve?).map Relation.normal := by
  have hentities : (d.sorted.flatMap (·.statements d.related)).filterMap Statement.relation? = [] := by
    rw [List.filterMap_eq_nil_iff]
    intro st hst
    obtain ⟨e, -, hst⟩ := List.mem_flatMap.1 hst
    rcases e.mem_statements hst with rfl | rfl <;> rfl
  rw [Diagram.statements, List.filterMap_append, hentities, List.append_nil, List.filterMap_map]
  exact congrFun List.filterMap_eq_map _

private theorem attributesOf_entity_statements (related : List Id) (e : Entity) (n : Text) :
    (e.statements related).flatMap (·.attributesOf n) =
      if e.name = n then e.attributes.map Attribute.normal else [] := by
  unfold Entity.statements
  split
  · simp [Statement.attributesOf, List.filterMap_map, Function.comp_def, Entry.attribute?]
  · rename_i hnil
    have hnil : e.attributes = [] := by simpa using hnil
    split <;> simp [Statement.attributesOf, hnil]

private theorem attributesOf_statements (d : Diagram) (n : Text) : d.statements.flatMap (·.attributesOf n) =
    (d.entities.filter (·.name = n)).flatMap fun x => x.attributes.map Attribute.normal := by
  have hrelations : ((d.relations.filterMap d.resolve?).map fun r => Statement.relation r.normal).flatMap
      (·.attributesOf n) = [] := by
    rw [List.flatMap_eq_nil_iff]
    intro st hst
    obtain ⟨r, -, rfl⟩ := List.mem_map.1 hst
    rfl
  -- entities of one name keep their order when they are sorted by name
  have hsorted : d.sorted.filter (·.name = n) = d.entities.filter (·.name = n) := by
    apply filter_sortBy
    intro a _ b _ ha hb
    simp only [decide_eq_true_eq] at ha hb
    rw [ha, hb, Text.le_refl]
  have hfilter : ∀ l : List Entity, (l.flatMap fun e => if e.name = n then e.attributes.map Attribute.normal else []) =
      (l.filter (·.name = n)).flatMap fun x => x.attributes.map Attribute.normal := by
    intro l
    induction l with
    | nil => rfl
    | cons e l ih =>
      rw [List.flatMap_cons, ih, List.filter_cons]
      by_cases he : e.name = n <;> simp [he]
  rw [Diagram.statements, List.flatMap_append, hrelations, List.nil_append, List.flatMap_assoc]
  simp only [attributesOf_entity_statements]
  rw [hfilter, hsorted]

private theorem Entity.exists_statement {related : List Id} {e : Entity} (h : e.attributes ≠ [] ∨ e.id ∉ related) :
    ∃ st ∈ e.statements related, e.name ∈ st.names := by
  unfold Entity.statements
  split
  · exact ⟨_, List.mem_singleton_self _, List.mem_singleton_self _⟩
  · rename_i hnone
    rw [if_neg (h.resolve_left hnone)]
    exact ⟨_, List.mem_singleton_self _, List.mem_singleton_self _⟩

/-- The relation that mentions an id carries the name. -/
private theorem Diagram.exists_relation {d : Diagram} (h : d.Writable) {e : Entity} (he : e ∈ d.entities)
    (hrelated : e.id ∈ d.related) :
    ∃ s ∈ d.relations.filterMap d.resolve?, e.name ∈ (Statement.relation s.normal).names := by
  have hfound : d.entity? e.id = some e := Keyed.find?_of_nodup h.ids he
  obtain ⟨r, hr, hid⟩ := List.mem_flatMap.1 hrelated
  obtain ⟨hr, hsome⟩ := List.mem_filter.1 hr
  obtain ⟨s, hs⟩ := Option.isSome_iff_exists.1 hsome
  refine ⟨s, List.mem_filterMap.2 ⟨r, hr, hs⟩, ?_⟩
  obtain ⟨a, b, ha, hb, rfl⟩ := resolve?_eq_some hs
  simp only [List.mem_cons, List.not_mem_nil, or_false] at hid
  rcases hid with hid | hid
  · rw [← hid, hfound] at ha
    cases ha
    exact List.mem_cons_self
  · rw [← hid, hfound] at hb
    cases hb
    exact List.mem_cons_of_mem _ (List.mem_singleton_self _)

/-- Every entity is mentioned, by itself or by a relation, and nothing else is. -/
private theorem mem_names_statements {d : Diagram} (h : d.Writable) {n : Text} :
    (∃ st ∈ d.statements, n ∈ st.names) ↔ n ∈ d.entities.map Entity.name := by
  constructor
  · rintro ⟨st, hst, hn⟩
    rcases List.mem_append.1 hst with hst | hst
    · obtain ⟨r, hr, rfl⟩ := List.mem_map.1 hst
      obtain ⟨r', -, hr'⟩ := List.mem_filterMap.1 hr
      obtain ⟨a, b, ha, hb, rfl⟩ := resolve?_eq_some hr'
      have ha := List.mem_map_of_mem (f := Entity.name) (List.mem_of_find?_eq_some ha)
      have hb := List.mem_map_of_mem (f := Entity.name) (List.mem_of_find?_eq_some hb)
      simp only [Statement.names, Relation.normal, List.mem_cons, List.not_mem_nil, or_false] at hn
      rcases hn with rfl | rfl
      · exact ha
      · exact hb
    · obtain ⟨e, he, hst⟩ := List.mem_flatMap.1 hst
      have he := List.mem_map_of_mem (f := Entity.name) (mem_sorted.1 he)
      rcases e.mem_statements hst with rfl | rfl <;> rwa [List.mem_singleton.1 hn]
  · intro hn
    obtain ⟨e, he, rfl⟩ := List.mem_map.1 hn
    by_cases hown : e.attributes ≠ [] ∨ e.id ∉ d.related
    · obtain ⟨st, hst, hname⟩ := Entity.exists_statement hown
      exact ⟨st, List.mem_append_right _ (List.mem_flatMap.2 ⟨e, mem_sorted.2 he, hst⟩), hname⟩
    · rw [not_or, not_not] at hown
      obtain ⟨s, hs, hname⟩ := Diagram.exists_relation h he (not_not.1 hown.2)
      exact ⟨_, List.mem_append_left _ (List.mem_map_of_mem hs), hname⟩

private theorem errors_statements (d : Diagram) : ∀ st ∈ d.statements, st.errors {} = [] := by
  intro st hst
  rcases List.mem_append.1 hst with hst | hst
  · obtain ⟨r, -, rfl⟩ := List.mem_map.1 hst
    rfl
  · obtain ⟨e, -, hst⟩ := List.mem_flatMap.1 hst
    rcases e.mem_statements hst with rfl | rfl
    · simp [Statement.errors, List.filterMap_map, Function.comp_def, Entry.error?]
    · rfl

/-- The diagram of the statements of a diagram is the diagram merged by name. -/
theorem mergeOf_statements {d : Diagram} (h : d.Writable) : (Schema.ofStatements d.statements).toDiagram.MergeOf d where
  ids := Schema.nodup_ids_toDiagram _
  names := by
    rw [Schema.map_name_toDiagram]
    exact Schema.nodup_names_ofStatements _
  mem_names n := by
    rw [Schema.map_name_toDiagram, Schema.mem_names_ofStatements, mem_names_statements h]
  attributes e he := by
    rw [Schema.attributes_of_mem_toDiagram (Schema.nodup_names_ofStatements _) he, Schema.attributes_ofStatements,
      attributesOf_statements]
  relations := by
    rw [Schema.resolve?_toDiagram fun r hr => Schema.ends_mem_names hr, Schema.relations_ofStatements,
      relations_statements, List.map_map]
    rfl

/-! ### Reading back -/

theorem detect_write {d : Diagram} (h : d.Writable) (size : Int) : Dialect.detect (d.write size) = .er := by
  have hlines : Text.lines (d.write size) = d.lines size :=
    List.splitOn_intercalate '\n' (break_not_mem_lines h size) (by simp [Diagram.lines])
  unfold Dialect.detect
  rw [hlines]
  rfl

/-- What was written is read as the statements of the diagram. -/
theorem read_write {d : Diagram} (h : d.Writable) (size : Int) :
    (read (d.write size)).outcome = .ok (Schema.ofStatements d.statements).toDiagram :=
  read_eq_ok (document_write h size) (errors_statements d)

/-- The text of a diagram of plain words, indented as it may be, is taken for what it is and read back as the diagram
merged by name. -/
theorem read_write_mergeOf {d : Diagram} (h : d.Writable) (size : Int) :
    Dialect.detect (d.write size) = .er ∧ ∃ m, (read (d.write size)).outcome = .ok m ∧ m.MergeOf d :=
  ⟨detect_write h size, _, read_eq_ok (document_write h size) (errors_statements d), mergeOf_statements h⟩

/-- Orders of customers: a name used twice, an empty label, and a relation that leads nowhere. -/
def orders : Diagram where
  entities := [
    { id := .minted 0, name := "orders".toList,
      attributes := [{ name := "id".toList, type := "int".toList, isPrimaryKey := true, isUnique := true }] },
    { id := .minted 1, name := "customer".toList },
    { id := .minted 2, name := "orders".toList,
      attributes := [{ name := "total".toList, type := "int".toList, comment := some "in cents".toList }] }]
  relations := [
    { source := .minted 1, target := .minted 2, targetCardinality := .zeroOrMore, label := some "places it".toList },
    { source := .minted 0, target := .minted 1, identifying := false, label := some [] },
    { source := .minted 0, target := .minted 7 }]

theorem read_write_orders : orders.Writable ∧ Dialect.detect (orders.write 2) = .er ∧
    ∃ m, (read (orders.write 2)).outcome = .ok m ∧ m.MergeOf orders :=
  have h : orders.Writable := ⟨by decide, by decide, by decide, by decide⟩
  ⟨h, read_write_mergeOf h 2⟩

end DiagramText.Er

import DiagramText.Er.Writer
import DiagramText.Proofs.Er.Lexing
import DiagramText.Proofs.Sorting
import DiagramText.Proofs.Text.Parts
import Mathlib.Data.List.Basic

/-!
# The lines of entity-relationship text

Which diagrams a text can hold (`Diagram.Writable`), and what their lines are cut into: a relation into its ends, its
symbol and its label (`kinds_line`), an attribute into its type, its name, its markers and its comment
(`kinds_attribute_line`), and the whole text into the header and the tokens of its elements (`kinds_write`).
-/

namespace DiagramText.Er

/-! ### Names, and what a text keeps of an element -/

/-- A word that is neither the header nor a marker of an attribute. -/
def isName (w : Text) : Bool := Text.isWord w && w != headerWord && (Key.ofWord? w).isNone

/-- The diagrams that a text can hold: ids are not repeated, names are plain words, and free texts can be quoted. -/
structure Diagram.Writable (d : Diagram) : Prop where
  ids : (d.entities.map Entity.id).Nodup
  names : ∀ e ∈ d.entities, isName e.name
  attributes : ∀ e ∈ d.entities, ∀ a ∈ e.attributes, isName a.name ∧ isName a.type ∧ ∀ t ∈ a.comment, Text.isQuotable t
  labels : ∀ r ∈ d.relations, ∀ t ∈ r.label, Text.isQuotable t

/-- The attribute as a text keeps it: a primary key is unique and never null, nothing else is said about null, and an
empty comment is none. -/
def Attribute.normal (a : Attribute) : Attribute :=
  { a with
    isUnique := a.isUnique && !a.isPrimaryKey
    isNullable := !a.isPrimaryKey
    comment := a.comment.filter (· ≠ []) }

/-- The relation as a text keeps it: an empty label is none. -/
def Relation.normal {ι : Type} (r : Relation ι) : Relation ι := { r with label := r.label.filter (· ≠ []) }

/-! ### The tokens of a line -/

/-- The token of a label. -/
def labelKind (label : Text) : Kind := if isBareLabel label then .word label else .string label

/-- The tokens of a label behind a relation, if there is any. -/
def labelKinds : Option Text → List Kind
  | some label => [.colon, labelKind label]
  | none => []

/-- The tokens of a relation. -/
def Relation.kinds (r : Relation Text) : List Kind :=
  [.word r.source, .relation (encodeSymbol r.sourceCardinality r.targetCardinality r.identifying), .word r.target] ++
    labelKinds r.normal.label

/-- The tokens of an attribute. -/
def Attribute.kinds (a : Attribute) : List Kind :=
  [.word a.type, .word a.name] ++ a.keys.map (fun k => .key k k.word) ++ a.normal.comment.toList.map .string

theorem ofWord_of_isName {w : Text} (h : isName w = true) : Kind.ofWord w = .word w := by
  simp only [isName, Bool.and_eq_true, bne_iff_ne, ne_eq, Option.isNone_iff_eq_none] at h
  simp [Kind.ofWord, h.1.2, h.2]

theorem isWord_of_isName {w : Text} (h : isName w = true) : Text.isWord w = true := by
  simp only [isName, Bool.and_eq_true] at h
  exact h.1.1

private theorem kinds_name {w rest : Text} (hw : isName w = true) (hr : ∀ x ∈ rest.head?, Text.isBlank x = true) :
    kinds rule (w ++ rest) = .word w :: kinds rule rest := by
  rw [kinds_word (isWord_of_isName hw) hr, ofWord_of_isName hw]

private theorem kinds_last_name {w : Text} (hw : isName w = true) : kinds rule w = [.word w] := by
  have h : kinds rule (w ++ []) = .word w :: kinds rule [] := kinds_name hw (by simp)
  rwa [List.append_nil, kinds_nil] at h

private theorem kinds_quote {s : Text} (hs : Text.isQuotable s = true) (rest : Text) :
    kinds rule (Text.quote s ++ rest) = .string s :: kinds rule rest := by
  rw [Text.isQuotable_iff] at hs
  have h : kinds rule ('"' :: ((s ++ ['"']) ++ rest)) = .string s :: kinds rule rest := by
    apply kinds_found (by decide)
    rw [List.append_assoc]
    simp [rule, Text.quoted_append hs.1 hs.2]
  simpa [Text.quote] using h

private theorem kinds_symbol (a b : Cardinality) (i : Bool) (rest : Text) :
    kinds rule (encodeSymbol a b i ++ rest) = .relation (encodeSymbol a b i) :: kinds rule rest := by
  have hsymbol : relationSymbol? (encodeSymbol a b i ++ rest) = some (encodeSymbol a b i) := by
    cases a <;> cases b <;> cases i <;> rfl
  obtain ⟨c, w, hcw, hc⟩ : ∃ c w, encodeSymbol a b i = c :: w ∧ (c = '|' ∨ c = '\x7d') := by
    cases a <;> exact ⟨_, _, rfl, by decide⟩
  rw [hcw, List.cons_append] at hsymbol
  rw [hcw, List.cons_append]
  apply kinds_found
  · rcases hc with rfl | rfl <;> decide
  · rcases hc with rfl | rfl <;> simp [rule, hsymbol]

theorem decodeSymbol_encodeSymbol (a b : Cardinality) (i : Bool) : decodeSymbol (encodeSymbol a b i) = (a, b, i) := by
  cases a <;> cases b <;> cases i <;> rfl

private theorem kinds_space (r : Text) : kinds rule (' ' :: r) = kinds rule r := kinds_gap rule (by decide) r

private theorem kinds_label {label : Text} (h : Text.isQuotable label = true) :
    kinds rule (formatLabel label) = [labelKind label] := by
  unfold formatLabel labelKind
  cases hb : isBareLabel label with
  | true =>
    have hname : isName label = true := by
      simp only [isBareLabel, isName, Bool.and_eq_true, bne_iff_ne, ne_eq] at hb ⊢
      exact ⟨⟨hb.1.1, fun e => hb.1.2 (by rw [e])⟩, hb.2⟩
    exact kinds_last_name hname
  | false => simpa using kinds_quote h []

private theorem kinds_colon (x : Text) : kinds rule (" : ".toList ++ x) = .colon :: kinds rule x := by
  show kinds rule (' ' :: ':' :: ' ' :: x) = _
  rw [kinds_space, kinds_cons rule (by decide)]
  show [Kind.colon] ++ kinds rule (' ' :: x) = _
  rw [kinds_space]
  rfl

theorem kinds_line {r : Relation Text} (hs : isName r.source = true) (ht : isName r.target = true)
    (hl : ∀ t ∈ r.label, Text.isQuotable t = true) : kinds rule r.line = r.kinds := by
  obtain ⟨source, target, a, b, i, label⟩ := r
  have hstart : ∀ rest, (∀ x ∈ rest.head?, Text.isBlank x = true) →
      kinds rule (source ++ ' ' :: encodeSymbol a b i ++ ' ' :: target ++ rest) =
        [.word source, .relation (encodeSymbol a b i), .word target] ++ kinds rule rest := by
    intro rest hrest
    simp only [List.append_assoc, List.cons_append]
    rw [kinds_name hs (by simp [Text.isBlank]), kinds_space, kinds_symbol, kinds_space, kinds_name ht hrest]
    rfl
  unfold Relation.line Relation.kinds Relation.normal
  rcases label with _ | _ | ⟨c, label⟩
  · rw [hstart _ (by simp), kinds_nil]
    rfl
  · rw [hstart _ (by simp), kinds_nil]
    rfl
  · rw [hstart _ (by simp [Text.isBlank]), kinds_colon, kinds_label (hl _ rfl)]
    rfl

private theorem ofWord_word (k : Key) : Kind.ofWord k.word = .key k k.word := by
  cases k <;> rfl

private theorem kinds_keys (ks : List Key) {rest : Text} (hr : ∀ x ∈ rest.head?, Text.isBlank x = true) :
    kinds rule ((ks.flatMap fun k => ' ' :: k.word) ++ rest) = ks.map (fun k => .key k k.word) ++ kinds rule rest := by
  induction ks with
  | nil => rfl
  | cons k ks ih =>
    rw [List.flatMap_cons, List.append_assoc, List.cons_append, kinds_space, kinds_word (by cases k <;> decide),
      ofWord_word, ih]
    · rfl
    · cases ks with
      | nil => simpa using hr
      | cons j ks => simp [Text.isBlank]

theorem kinds_attribute_line {a : Attribute} (hn : isName a.name = true) (ht : isName a.type = true)
    (hc : ∀ t ∈ a.comment, Text.isQuotable t = true) : kinds rule a.line = a.kinds := by
  obtain ⟨comments, hcomments, hend⟩ : ∃ comments : Text,
      a.line = a.type ++ ' ' :: (a.name ++ ((a.keys.flatMap fun k => ' ' :: k.word) ++ comments)) ∧
        (∀ x ∈ comments.head?, Text.isBlank x = true) ∧
          kinds rule comments = a.normal.comment.toList.map .string := by
    unfold Attribute.line Attribute.normal
    rcases hcomment : a.comment with _ | _ | ⟨c, comment⟩
    · exact ⟨[], by simp [Text.unwords_cons, List.flatMap_map], by simp, kinds_nil rule⟩
    · exact ⟨[], by simp [Text.unwords_cons, List.flatMap_map], by simp, kinds_nil rule⟩
    · refine ⟨' ' :: Text.quote (c :: comment), by simp [Text.unwords_cons, List.flatMap_map],
        by simp [Text.isBlank], ?_⟩
      have h := kinds_quote (hc (c :: comment) (by simp [hcomment])) []
      rw [List.append_nil] at h
      rw [kinds_space, h, kinds_nil]
      rfl
  have hkeys : ∀ x ∈ ((a.keys.flatMap fun k => ' ' :: k.word) ++ comments).head?, Text.isBlank x = true := by
    cases a.keys with
    | nil => simpa using hend.1
    | cons k ks => simp [Text.isBlank]
  rw [hcomments, kinds_name ht (by simp [Text.isBlank]), kinds_space, kinds_name hn hkeys, kinds_keys _ hend.1, hend.2]
  simp [Attribute.kinds]

/-! ### The lines of an entity -/

/-- The tokens of an entity, each line with the break before it. -/
def Entity.kinds (related : List Id) (e : Entity) : List Kind :=
  if e.attributes ≠ [] then
    [.newline, .word e.name, .openBrace] ++ e.attributes.flatMap (fun a => .newline :: a.kinds) ++
      [.newline, .closeBrace]
  else if e.id ∈ related then []
  else [.newline, .word e.name]

theorem kinds_entity_lines {e : Entity} (hn : isName e.name = true)
    (ha : ∀ a ∈ e.attributes, isName a.name ∧ isName a.type ∧ ∀ t ∈ a.comment, Text.isQuotable t) (size : Int)
    (related : List Id) :
    ((e.lines size related).flatMap fun l => .newline :: kinds rule l) = e.kinds related := by
  have hopen : kinds rule (e.name ++ " \x7b".toList) = [.word e.name, .openBrace] := by
    rw [kinds_name hn (by simp [Text.isBlank])]
    show _ :: kinds rule (' ' :: '\x7b' :: []) = _
    rw [kinds_space, kinds_cons rule (by decide)]
    simp [rule]
  have hclose : kinds rule "\x7d".toList = [.closeBrace] := by
    show kinds rule ('\x7d' :: []) = _
    rw [kinds_cons rule (by decide)]
    simp [rule, relationSymbol?, Cardinality.ofSymbol?, Cardinality.all, Cardinality.sourceSymbol,
      Cardinality.targetSymbol]
  have hname := kinds_last_name hn
  unfold Entity.lines Entity.kinds
  split
  · simp only [List.flatMap_append, List.flatMap_cons, List.flatMap_nil, List.flatMap_map, List.append_nil,
      List.append_assoc, kinds_indent, hopen, hclose]
    have hlines : (e.attributes.flatMap fun a => Kind.newline :: kinds rule a.line) =
        e.attributes.flatMap fun a => .newline :: a.kinds := by
      apply List.flatMap_congr
      intro a h
      obtain ⟨han, hat, hac⟩ := ha a h
      rw [kinds_attribute_line han hat hac]
    rw [hlines]
  · split
    · rfl
    · simp only [List.flatMap_cons, List.flatMap_nil, kinds_indent, hname, List.append_nil]

/-! ### No breaks inside lines -/

private theorem break_not_mem_name {w : Text} (h : isName w = true) : '\n' ∉ w :=
  Text.break_not_mem_of_isWord (isWord_of_isName h)

private theorem break_not_mem_quote {s : Text} (h : Text.isQuotable s = true) : '\n' ∉ Text.quote s := by
  rw [Text.isQuotable_iff] at h
  simp [Text.quote, h.2]

private theorem break_not_mem_symbol (a b : Cardinality) (i : Bool) : '\n' ∉ encodeSymbol a b i := by
  cases a <;> cases b <;> cases i <;> decide

private theorem break_not_mem_relation_line {r : Relation Text} (hs : isName r.source = true)
    (ht : isName r.target = true) (hl : ∀ t ∈ r.label, Text.isQuotable t = true) : '\n' ∉ r.line := by
  have hsource := break_not_mem_name hs
  have htarget := break_not_mem_name ht
  have hsymbol := break_not_mem_symbol r.sourceCardinality r.targetCardinality r.identifying
  unfold Relation.line
  split
  · rename_i c label hlabel
    have hquote : '\n' ∉ formatLabel (c :: label) := by
      have hq := hl (c :: label) (by simp [hlabel])
      unfold formatLabel
      split
      · exact (Text.isQuotable_iff.1 hq).2
      · exact break_not_mem_quote hq
    simp [hsource, htarget, hsymbol, hquote]
  · simp [hsource, htarget, hsymbol]

private theorem break_not_mem_attribute_line {a : Attribute} (hn : isName a.name = true) (ht : isName a.type = true)
    (hc : ∀ t ∈ a.comment, Text.isQuotable t = true) : '\n' ∉ a.line := by
  have hname := break_not_mem_name hn
  have htype := break_not_mem_name ht
  have hkey : ∀ k : Key, '\n' ∉ k.word := by
    intro k
    cases k <;> decide
  unfold Attribute.line
  split
  · rename_i c comment hcomment
    have hquote := break_not_mem_quote (hc (c :: comment) (by simp [hcomment]))
    simp [Text.unwords_cons, hname, htype, hkey, hquote]
  · simp [Text.unwords_cons, hname, htype, hkey]

private theorem break_not_mem_entity_lines {e : Entity} (hn : isName e.name = true)
    (ha : ∀ a ∈ e.attributes, isName a.name ∧ isName a.type ∧ ∀ t ∈ a.comment, Text.isQuotable t) (size : Int)
    (related : List Id) : ∀ l ∈ e.lines size related, '\n' ∉ l := by
  intro l hl
  have hname := break_not_mem_name hn
  have hindent := Text.break_not_mem_indent size
  unfold Entity.lines at hl
  split at hl
  · rw [List.append_assoc, List.mem_append, List.mem_append] at hl
    rcases hl with hl | hl | hl
    · rw [List.mem_singleton.1 hl]
      simp [hname, hindent]
    · obtain ⟨a, h, rfl⟩ := List.mem_map.1 hl
      obtain ⟨han, hat, hac⟩ := ha a h
      simp [hindent, break_not_mem_attribute_line han hat hac]
    · rw [List.mem_singleton.1 hl]
      simp [hindent]
  · split at hl
    · cases hl
    · rw [List.mem_singleton.1 hl]
      simp [hname, hindent]

/-! ### The text of a diagram -/

/-- A relation with known ends carries the names of two entities. -/
theorem resolve?_eq_some {d : Diagram} {r : Relation Id} {s : Relation Text} (h : d.resolve? r = some s) :
    ∃ a b, d.entity? r.source = some a ∧ d.entity? r.target = some b ∧
      s = { r with source := a.name, target := b.name } := by
  unfold Diagram.resolve? at h
  split at h
  · rename_i a b ha hb
    exact ⟨a, b, ha, hb, (Option.some.inj h).symm⟩
  · cases h

theorem Diagram.Writable.relation {d : Diagram} (h : d.Writable) {s : Relation Text}
    (hs : s ∈ d.relations.filterMap d.resolve?) :
    isName s.source = true ∧ isName s.target = true ∧ ∀ t ∈ s.label, Text.isQuotable t = true := by
  obtain ⟨r, hr, hrs⟩ := List.mem_filterMap.1 hs
  obtain ⟨a, b, ha, hb, rfl⟩ := resolve?_eq_some hrs
  exact ⟨h.names a (List.mem_of_find?_eq_some ha), h.names b (List.mem_of_find?_eq_some hb), h.labels r hr⟩

theorem mem_sorted {d : Diagram} {e : Entity} : e ∈ d.sorted ↔ e ∈ d.entities := mem_sortBy

theorem break_not_mem_lines {d : Diagram} (h : d.Writable) (size : Int) : ∀ l ∈ d.lines size, '\n' ∉ l := by
  intro l hl
  unfold Diagram.lines at hl
  rw [List.cons_append, List.mem_cons, List.mem_append] at hl
  rcases hl with rfl | hl | hl
  · decide
  · obtain ⟨s, hs, rfl⟩ := List.mem_map.1 hl
    obtain ⟨hsource, htarget, hlabel⟩ := h.relation hs
    have hindent := Text.break_not_mem_indent size 1
    simp [hindent, break_not_mem_relation_line hsource htarget hlabel]
  · obtain ⟨e, he, hl⟩ := List.mem_flatMap.1 hl
    have he := mem_sorted.1 he
    exact break_not_mem_entity_lines (h.names e he) (h.attributes e he) size d.related l hl

/-- The tokens of a diagram: the header, the relations in order, the entities by name. -/
theorem kinds_write {d : Diagram} (h : d.Writable) (size : Int) :
    kinds rule (d.write size) = .header ::
      ((d.relations.filterMap d.resolve?).flatMap (fun r => .newline :: r.kinds) ++
        d.sorted.flatMap (·.kinds d.related)) := by
  have hheader : kinds rule headerWord = [.header] := by
    have hword : kinds rule (headerWord ++ []) = Kind.ofWord headerWord :: kinds rule [] :=
      kinds_word (by decide) (by simp)
    rwa [List.append_nil, kinds_nil] at hword
  have hrelations : ((d.relations.filterMap d.resolve?).map fun r => Text.indent size 1 ++ r.line).flatMap
      (fun l => Kind.newline :: kinds rule l) =
        (d.relations.filterMap d.resolve?).flatMap fun r => .newline :: r.kinds := by
    rw [List.flatMap_map]
    apply List.flatMap_congr
    intro r hr
    obtain ⟨hsource, htarget, hlabel⟩ := h.relation hr
    rw [kinds_indent, kinds_line hsource htarget hlabel]
  have hentities : (d.sorted.flatMap (·.lines size d.related)).flatMap (fun l => Kind.newline :: kinds rule l) =
      d.sorted.flatMap (·.kinds d.related) := by
    rw [List.flatMap_assoc]
    apply List.flatMap_congr
    intro e he
    have he := mem_sorted.1 he
    exact kinds_entity_lines (h.names e he) (h.attributes e he) size d.related
  have hbreak := break_not_mem_lines h size
  unfold Diagram.write
  unfold Diagram.lines at hbreak ⊢
  rw [List.cons_append] at hbreak ⊢
  rw [rule_lineLocal.kinds_unlines hbreak, List.flatMap_append, hrelations, hentities, hheader]
  rfl

end DiagramText.Er

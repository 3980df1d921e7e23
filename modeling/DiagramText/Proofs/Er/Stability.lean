import DiagramText.Proofs.Er.Parsed
import DiagramText.Proofs.Er.RoundTrip
import Mathlib.Data.List.Nodup

/-!
# Writing entity-relationship text again

The lines of an entity depend on its name, on what a text keeps of its attributes, and on whether a relation mentions it
(`lines_eq_of_normal`, `id_mem_related_iff`).  All of that is the same in a diagram and in what is merged from it, so
the two are written alike if the names were distinct before (`write_of_mergeOf`).  In particular a text that was written
for the diagram of a text is written again as it is (`write_read_write`).
-/

namespace DiagramText.Er

/-! ### Lines that say the same -/

theorem Relation.line_normal (r : Relation Text) : r.normal.line = r.line := by
  unfold Relation.line Relation.normal
  rcases r.label with _ | _ | ⟨c, label⟩ <;> rfl

theorem Attribute.line_normal (a : Attribute) : a.normal.line = a.line := by
  have hkeys : a.normal.keys = a.keys := by
    unfold Attribute.keys Attribute.normal
    cases a.isPrimaryKey <;> cases a.isUnique <;> rfl
  unfold Attribute.line
  rw [hkeys]
  unfold Attribute.normal
  rcases a.comment with _ | _ | ⟨c, comment⟩ <;> rfl

private theorem lines_eq_of_normal {e e' : Entity} {related related' : List Id} (hname : e'.name = e.name)
    (hattributes : e'.attributes = e.attributes.map Attribute.normal) (hrelated : e'.id ∈ related' ↔ e.id ∈ related)
    (size : Int) : e'.lines size related' = e.lines size related := by
  unfold Entity.lines
  simp only [hname, hattributes, hrelated, ne_eq, List.map_eq_nil_iff, List.map_map, Function.comp_def,
    Attribute.line_normal]

namespace Diagram

variable {d m : Diagram}

/-- An entity is mentioned by a relation if and only if a relation that is written names it. -/
private theorem id_mem_related_iff (hids : (d.entities.map Entity.id).Nodup)
    (hnames : (d.entities.map Entity.name).Nodup) {e : Entity} (he : e ∈ d.entities) :
    e.id ∈ d.related ↔ ∃ r ∈ d.relations.filterMap d.resolve?, e.name = r.source ∨ e.name = r.target := by
  -- ids and names tell the same entities apart
  have hend : ∀ {id : Id} {a : Entity}, d.entity? id = some a → (id = e.id ↔ a.name = e.name) := by
    intro id a ha
    have hmem : a ∈ d.entities := List.mem_of_find?_eq_some ha
    have hid : a.id = id := by simpa using List.find?_some ha
    rw [← hid]
    constructor
    · exact fun h => congrArg Entity.name (List.inj_on_of_nodup_map hids hmem he h)
    · exact fun h => congrArg Entity.id (List.inj_on_of_nodup_map hnames hmem he h)
  constructor
  · intro h
    obtain ⟨r, hr, hid⟩ := List.mem_flatMap.1 h
    obtain ⟨hr, hsome⟩ := List.mem_filter.1 hr
    obtain ⟨s, hs⟩ := Option.isSome_iff_exists.1 hsome
    refine ⟨s, List.mem_filterMap.2 ⟨r, hr, hs⟩, ?_⟩
    obtain ⟨a, b, ha, hb, rfl⟩ := resolve?_eq_some hs
    simp only [List.mem_cons, List.not_mem_nil, or_false] at hid
    exact hid.imp (fun h => ((hend ha).1 h.symm).symm) fun h => ((hend hb).1 h.symm).symm
  · rintro ⟨s, hs, hname⟩
    obtain ⟨r, hr, hrs⟩ := List.mem_filterMap.1 hs
    obtain ⟨a, b, ha, hb, rfl⟩ := resolve?_eq_some hrs
    refine List.mem_flatMap.2 ⟨r, List.mem_filter.2 ⟨hr, by rw [hrs]; rfl⟩, ?_⟩
    simp only [List.mem_cons, List.not_mem_nil, or_false]
    exact hname.imp (fun h => ((hend ha).2 h.symm).symm) fun h => ((hend hb).2 h.symm).symm

/-- The lines of the entity with this name. -/
private def linesOf (d : Diagram) (size : Int) (name : Text) : List Text :=
  ((d.named? name).map fun e => e.lines size d.related).getD []

/-- The lines of the entities follow the names in their order. -/
private theorem flatMap_lines (hnames : (d.entities.map Entity.name).Nodup) (size : Int) :
    d.sorted.flatMap (·.lines size d.related) =
      (sortBy Text.le (d.entities.map Entity.name)).flatMap (d.linesOf size) := by
  rw [← map_sortBy, List.flatMap_map]
  apply List.flatMap_congr
  intro e he
  have hfound : d.named? e.name = some e := Keyed.find?_of_nodup hnames (mem_sorted.1 he)
  rw [linesOf, hfound]
  rfl

/-! ### Merged diagrams -/

/-- A relation of a merged diagram is one of the diagram as a text keeps it. -/
private theorem MergeOf.resolved (h : m.MergeOf d) :
    m.relations.filterMap m.resolve? = (d.relations.filterMap d.resolve?).map Relation.normal := by
  have hmap : ∀ l : List (Relation Id), l.filterMap m.resolve? = (l.map m.resolve?).filterMap id := by
    intro l
    rw [List.filterMap_map]
    rfl
  rw [hmap, h.relations, List.filterMap_map]
  exact congrFun List.filterMap_eq_map _

/-- A merged diagram is written like the diagram, if that has no two entities of one name. -/
theorem write_of_mergeOf (h : m.MergeOf d) (hids : (d.entities.map Entity.id).Nodup)
    (hnames : (d.entities.map Entity.name).Nodup) (size : Int) : m.write size = d.write size := by
  have hrelations : (m.relations.filterMap m.resolve?).map Relation.line =
      (d.relations.filterMap d.resolve?).map Relation.line := by
    rw [h.resolved, List.map_map]
    exact List.map_congr_left fun r _ => r.line_normal
  have hperm : (m.entities.map Entity.name).Perm (d.entities.map Entity.name) :=
    (List.perm_ext_iff_of_nodup h.names hnames).2 h.mem_names
  have hsorted := sortBy_perm_eq Text.le_trans Text.le_total Text.le_antisymm hperm
  have hlines : ∀ n ∈ sortBy Text.le (d.entities.map Entity.name), m.linesOf size n = d.linesOf size n := by
    intro n hn
    rw [mem_sortBy] at hn
    obtain ⟨e, he, rfl⟩ := List.mem_map.1 hn
    obtain ⟨e', he', hname⟩ := List.mem_map.1 ((h.mem_names e.name).2 hn)
    have hfound : d.named? e.name = some e := Keyed.find?_of_nodup hnames he
    have hfound' : m.named? e'.name = some e' := Keyed.find?_of_nodup h.names he'
    rw [hname] at hfound'
    have hattributes : e'.attributes = e.attributes.map Attribute.normal := by
      rw [h.attributes e' he', hname, Keyed.filter_of_nodup hnames he, List.flatMap_singleton]
    have hrelated : e'.id ∈ m.related ↔ e.id ∈ d.related := by
      rw [id_mem_related_iff h.ids h.names he', id_mem_related_iff hids hnames he, h.resolved, hname]
      simp only [List.mem_map, exists_exists_and_eq_and]
      rfl
    rw [linesOf, linesOf, hfound, hfound']
    exact lines_eq_of_normal hname hattributes hrelated size
  have hindented : ∀ l : List (Relation Text), l.map (fun r => Text.indent size 1 ++ r.line) =
      (l.map Relation.line).map fun s => Text.indent size 1 ++ s := by
    intro l
    rw [List.map_map]
    rfl
  unfold write lines
  rw [flatMap_lines h.names, flatMap_lines hnames, hsorted, List.flatMap_congr hlines, hindented, hindented, hrelations]

end Diagram

/-- Whatever text a diagram was read from, the text that is written for it is read again and written again as it is. -/
theorem write_read_write {s : Text} {d : Diagram} (h : (read s).outcome = .ok d) (size : Int) :
    ∃ m, (read (d.write size)).outcome = .ok m ∧ m.write size = d.write size := by
  obtain ⟨hd, hnames⟩ := writable_of_read h
  exact ⟨_, read_write hd size, Diagram.write_of_mergeOf (mergeOf_statements hd) hd.ids hnames size⟩

/-- Three entities, one of them behind a header that stands too late, an empty label and an empty comment. -/
def shelves : Diagram where
  entities := [
    { id := .minted 0, name := "shelf".toList, position := { x := 50, y := 50 } },
    { id := .minted 1, name := "room".toList,
      attributes := [
        { name := "id".toList, type := "int".toList, isPrimaryKey := true, isUnique := true, isNullable := false,
          comment := some [] }],
      position := { x := 350, y := 50 } },
    { id := .minted 2, name := "book".toList,
      attributes := [{ name := "t".toList, type := "text".toList, isUnique := true, comment := some "x \x7d".toList }],
      position := { x := 650, y := 50 } }]
  relations := [
    { source := .minted 0, target := .minted 1, sourceCardinality := .zeroOrMore, identifying := false,
      label := some "is in".toList },
    { source := .minted 0, target := .minted 2, targetCardinality := .oneOrMore, label := some [] }]

/-- The text of these shelves. -/
def shelvesText : Text :=
  ("%% no header\nshelf \x7do..|| room : \"is in\nroom \x7b int id PK, UK \"\" 7\n\x7d : shelf\n" ++
    "||--|\x7b book : \"\" erDiagram book \x7btext t uk \"x \x7d\" \x7d").toList

theorem write_read_write_shelves : (read shelvesText).outcome = .ok shelves ∧
    ∃ m, (read (shelves.write 3)).outcome = .ok m ∧ m.write 3 = shelves.write 3 := by
  have h := eq_ok_of_toOption (x := (read shelvesText).outcome) (a := shelves) (by decide +kernel)
  exact ⟨h, write_read_write h 3⟩

end DiagramText.Er

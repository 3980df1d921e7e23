import DiagramText.Er.Schema
import DiagramText.Er.Writer
import DiagramText.Proofs.Keyed

/-!
# Merging by name

What a list of statements says, entity by entity: a schema names exactly what its statements mention
(`mem_names_ofStatements`), with the entities that more statements bring behind those that are there
(`names_ofStatements_append`); each entity has the attributes of all its blocks in order (`attributes_ofStatements`),
and the relations are those of the statements.  In the diagram of a schema every relation leads back to the names that
it was stated with (`resolve?_toDiagram`).
-/

namespace DiagramText.Er

/-- The entities that a statement mentions. -/
def Statement.names : Statement → List Text
  | mention name | block name _ _ => [name]
  | relation r => [r.source, r.target]
  | _ => []

/-- The attributes that a statement gives to the entity `name`. -/
def Statement.attributesOf (name : Text) : Statement → List Attribute
  | block n entries _ => if n = name then entries.filterMap Entry.attribute? else []
  | _ => []

/-- The entities that a statement mentions, each with the attributes that it is given there. -/
def Statement.mentions : Statement → Keyed Text (List Attribute)
  | mention name => [(name, [])]
  | block name entries _ => [(name, entries.filterMap Entry.attribute?)]
  | relation r => [(r.source, []), (r.target, [])]
  | _ => []

/-- The relation that a statement states. -/
def Statement.relation? : Statement → Option (Relation Text)
  | relation r => some r
  | _ => none

namespace Schema

/-- The attributes of the entity `name`, none if there is no such entity. -/
def attributes (s : Schema) (name : Text) : List Attribute := (s.entities.get? name).getD []

/-! ### One statement -/

theorem mem_names_extend {s : Schema} {name n : Text} {as : List Attribute} :
    n ∈ (s.extend name as).names ↔ n ∈ s.names ∨ n = name := by
  unfold names extend
  rw [Keyed.keys_upsert]
  split
  · rename_i h
    exact ⟨Or.inl, fun h' => h'.elim id fun e => e ▸ h⟩
  · simp

theorem attributes_extend (s : Schema) (name n : Text) (as : List Attribute) :
    (s.extend name as).attributes n = s.attributes n ++ if name = n then as else [] := by
  unfold attributes extend
  rw [Keyed.get?_upsert]
  by_cases h : n = name
  · simp [h]
  · simp [h, Ne.symm h]

theorem mem_names_add {s : Schema} {st : Statement} {n : Text} : n ∈ (s.add st).names ↔ n ∈ s.names ∨ n ∈ st.names := by
  cases st with
  | mention name => simp only [add, mem_names_extend, Statement.names, List.mem_singleton]
  | block name entries closed => simp only [add, mem_names_extend, Statement.names, List.mem_singleton]
  | relation r =>
    show n ∈ ((s.extend r.source []).extend r.target []).names ↔ _
    simp only [mem_names_extend, Statement.names, List.mem_cons, List.not_mem_nil, or_false, or_assoc]
  | untargeted place => simp [add, Statement.names]
  | skipped kind place => simp [add, Statement.names]

theorem attributes_add (s : Schema) (st : Statement) (n : Text) :
    (s.add st).attributes n = s.attributes n ++ st.attributesOf n := by
  cases st with
  | mention name =>
    rw [add, attributes_extend]
    split <;> rfl
  | block name entries closed => rw [add, attributes_extend]; rfl
  | relation r =>
    show ((s.extend r.source []).extend r.target []).attributes n = _
    have hnil : (Statement.relation r).attributesOf n = [] := rfl
    rw [attributes_extend, attributes_extend, hnil]
    split <;> split <;> simp
  | untargeted place => simp [add, Statement.attributesOf]
  | skipped kind place => simp [add, Statement.attributesOf]

theorem relations_add (s : Schema) (st : Statement) : (s.add st).relations = s.relations ++ st.relation?.toList := by
  cases st <;> simp [add, extend, relate, Statement.relation?]

theorem nodup_names_add {s : Schema} (h : s.names.Nodup) (st : Statement) : (s.add st).names.Nodup := by
  cases st with
  | mention name => exact Keyed.nodup_keys_upsert h
  | block name entries closed => exact Keyed.nodup_keys_upsert h
  | relation r => exact Keyed.nodup_keys_upsert (Keyed.nodup_keys_upsert h)
  | untargeted place => exact h
  | skipped kind place => exact h

/-! ### A list of statements -/

private theorem foldl_add (sts : List Statement) (s : Schema) (n : Text) :
    (n ∈ (sts.foldl add s).names ↔ n ∈ s.names ∨ ∃ st ∈ sts, n ∈ st.names) ∧
      (sts.foldl add s).attributes n = s.attributes n ++ sts.flatMap (·.attributesOf n) ∧
      (sts.foldl add s).relations = s.relations ++ sts.filterMap Statement.relation? ∧
      (s.names.Nodup → (sts.foldl add s).names.Nodup) := by
  induction sts generalizing s with
  | nil => simp
  | cons st sts ih =>
    obtain ⟨hnames, hattr, hrel, hnodup⟩ := ih (s.add st)
    refine ⟨?_, ?_, ?_, ?_⟩
    · rw [List.foldl_cons, hnames, mem_names_add]
      simp [or_assoc]
    · rw [List.foldl_cons, hattr, attributes_add, List.flatMap_cons, List.append_assoc]
    · rw [List.foldl_cons, hrel, relations_add, List.append_assoc, List.filterMap_cons]
      cases st.relation? <;> rfl
    · exact fun h => hnodup (nodup_names_add h st)

theorem mem_names_ofStatements {sts : List Statement} {n : Text} :
    n ∈ (ofStatements sts).names ↔ ∃ st ∈ sts, n ∈ st.names := by
  have h := (foldl_add sts {} n).1
  simpa [ofStatements, names] using h

theorem attributes_ofStatements (sts : List Statement) (n : Text) :
    (ofStatements sts).attributes n = sts.flatMap (·.attributesOf n) := (foldl_add sts {} n).2.1

theorem relations_ofStatements (sts : List Statement) :
    (ofStatements sts).relations = sts.filterMap Statement.relation? := (foldl_add sts {} []).2.2.1

theorem nodup_names_ofStatements (sts : List Statement) : (ofStatements sts).names.Nodup :=
  (foldl_add sts {} []).2.2.2 List.nodup_nil

private theorem entities_foldl_add (sts : List Statement) (s : Schema) : (sts.foldl add s).entities =
    (sts.flatMap Statement.mentions).foldl (fun l c => Keyed.upsert c.1 (fun old => old.getD [] ++ c.2) l)
      s.entities := by
  induction sts generalizing s with
  | nil => rfl
  | cons st sts ih =>
    rw [List.foldl_cons, ih, List.flatMap_cons, List.foldl_append]
    congr 1
    cases st <;> rfl

/-- What more statements say comes behind: their new entities are the last ones. -/
theorem names_ofStatements_append (sts sts' : List Statement) : (ofStatements (sts ++ sts')).names =
    (ofStatements sts).names ++ (ofStatements sts').names.filter (· ∉ (ofStatements sts).names) := by
  have hkeys : ∀ s : Schema, (sts'.foldl add s).names = s.names ++
      (Keyed.firsts (fun k => k) ((sts'.flatMap Statement.mentions).map Prod.fst)).filter (· ∉ s.names) := by
    intro s
    have hupsert := Keyed.keys_foldl_upsert (k := Prod.fst)
      (f := fun (c : Text × List Attribute) (old : Option (List Attribute)) => old.getD [] ++ c.2)
      (sts'.flatMap Statement.mentions) s.entities
    rw [names, entities_foldl_add, hupsert]
    exact congrArg _ (List.filter_congr fun _ _ => decide_eq_decide.2 Iff.rfl)
  have hown := hkeys {}
  rw [show ({} : Schema).names = [] from rfl, List.nil_append, List.filter_eq_self.2 (by simp)] at hown
  rw [ofStatements, List.foldl_append, hkeys, ← hown]
  rfl

theorem ends_mem_names {sts : List Statement} {r : Relation Text} (h : r ∈ (ofStatements sts).relations) :
    r.source ∈ (ofStatements sts).names ∧ r.target ∈ (ofStatements sts).names := by
  rw [relations_ofStatements] at h
  obtain ⟨st, hst, hr⟩ := List.mem_filterMap.1 h
  cases st with
  | relation r' =>
    cases hr
    exact ⟨mem_names_ofStatements.2 ⟨_, hst, by simp [Statement.names]⟩,
      mem_names_ofStatements.2 ⟨_, hst, by simp [Statement.names]⟩⟩
  | _ => cases hr

/-! ### The diagram of a schema -/

theorem map_name_toDiagram (s : Schema) : s.toDiagram.entities.map Entity.name = s.names := by
  unfold toDiagram
  exact Keyed.map_mapIdx (g := Entity.name) (h := Prod.fst) (fun _ _ => rfl) s.entities

private theorem id_of_getElem? {s : Schema} {i : Nat} {e : Entity} (h : s.toDiagram.entities[i]? = some e) :
    e.id = .minted i := by
  rw [toDiagram, List.getElem?_mapIdx] at h
  obtain ⟨p, -, rfl⟩ := Option.map_eq_some_iff.1 h
  rfl

private theorem minted_inj (i j : Nat) (h : Id.minted i = Id.minted j) : i = j := by
  cases h
  rfl

theorem nodup_ids_toDiagram (s : Schema) : (s.toDiagram.entities.map Entity.id).Nodup :=
  Keyed.nodup_of_numbered minted_inj fun _ _ h => id_of_getElem? h

theorem attributes_of_mem_toDiagram {s : Schema} (hs : s.names.Nodup) {e : Entity} (he : e ∈ s.toDiagram.entities) :
    e.attributes = s.attributes e.name := by
  rw [toDiagram] at he
  obtain ⟨i, hi, rfl⟩ := List.mem_mapIdx.1 he
  show s.entities[i].2 = s.attributes s.entities[i].1
  have hmem : (s.entities[i].1, s.entities[i].2) ∈ s.entities := List.getElem_mem hi
  rw [attributes, Keyed.get?_of_mem hs hmem]
  rfl

private theorem entity?_toDiagram {s : Schema} {name : Text} (h : name ∈ s.names) :
    ∃ e, s.toDiagram.entity? (.minted (s.names.idxOf name)) = some e ∧ e.name = name := by
  have hlt : s.names.idxOf name < s.toDiagram.entities.length := by
    rw [← List.length_map (f := Entity.name), map_name_toDiagram]
    exact List.idxOf_lt_length_of_mem h
  refine ⟨s.toDiagram.entities[s.names.idxOf name], ?_, ?_⟩
  · unfold Diagram.entity?
    rw [Keyed.find?_of_numbered minted_inj fun i a ha => id_of_getElem? ha, List.getElem?_eq_getElem hlt]
  · have hget := List.getElem_map Entity.name (l := s.toDiagram.entities) (i := s.names.idxOf name)
      (h := by simpa using hlt)
    rw [← hget]
    simp only [map_name_toDiagram, List.getElem_idxOf]

/-- The relations of the diagram are those of the schema, by name. -/
theorem resolve?_toDiagram {s : Schema} (h : ∀ r ∈ s.relations, r.source ∈ s.names ∧ r.target ∈ s.names) :
    s.toDiagram.relations.map s.toDiagram.resolve? = s.relations.map some := by
  show (s.relations.map fun r => _).map _ = _
  rw [List.map_map]
  apply List.map_congr_left
  intro r hr
  obtain ⟨a, ha, han⟩ := entity?_toDiagram (h r hr).1
  obtain ⟨b, hb, hbn⟩ := entity?_toDiagram (h r hr).2
  simp only [Function.comp_apply, Diagram.resolve?, Relation.map, ha, hb, han, hbn]

theorem resolve?_isSome_toDiagram {s : Schema} (h : ∀ r ∈ s.relations, r.source ∈ s.names ∧ r.target ∈ s.names) :
    ∀ r ∈ s.toDiagram.relations, (s.toDiagram.resolve? r).isSome := by
  intro r hr
  have hmem := List.mem_map_of_mem (f := s.toDiagram.resolve?) hr
  rw [resolve?_toDiagram h] at hmem
  obtain ⟨x, -, hx⟩ := List.mem_map.1 hmem
  rw [← hx]
  rfl

end Schema

end DiagramText.Er

import DiagramText.Proofs.Er.Lines
import DiagramText.Proofs.Er.Merging
import DiagramText.Proofs.Er.Places
import DiagramText.Proofs.Report

/-!
# What an entity-relationship text can hold

However malformed a text is, its words are names and its strings can be quoted (`clean_of_mem_kinds`), and so it is with
the statements that are read from it (`clean_of_mem_document`).  So the diagram of a text can be written, and no two of
its entities share a name (`writable_of_read`).
-/

namespace DiagramText.Er

/-- What a text can give to a token. -/
def Kind.Clean : Kind → Prop
  | word name => isName name = true
  | string value => Text.isQuotable value = true
  | _ => True

/-- Type and name are names, and the comment can be quoted. -/
def Attribute.Clean (a : Attribute) : Prop :=
  isName a.name = true ∧ isName a.type = true ∧ ∀ t ∈ a.comment, Text.isQuotable t = true

/-- What a text can give to a statement. -/
def Statement.Clean : Statement → Prop
  | mention name => isName name = true
  | block name entries _ => isName name = true ∧ ∀ a ∈ entries.filterMap Entry.attribute?, a.Clean
  | relation r => isName r.source = true ∧ isName r.target = true ∧ ∀ t ∈ r.label, Text.isQuotable t = true
  | _ => True

/-! ### Tokens -/

private theorem clean_ofWord {w : Text} (hw : Text.isWord w = true) : (Kind.ofWord w).Clean := by
  unfold Kind.ofWord
  split
  · trivial
  · rename_i hheader
    split
    · trivial
    · rename_i hkey
      simp [Kind.Clean, isName, hw, hheader, hkey]

/-- Every token of a text is clean. -/
theorem clean_of_mem_kinds {s : Text} {k : Kind} (h : k ∈ kinds rule s) : k.Clean := by
  obtain ⟨c, r, -, -, hk⟩ := exists_rule_of_mem_kinds h
  unfold rule at hk
  split at hk
  · cases hk
    trivial
  split at hk
  · cases hk
    trivial
  split at hk
  · cases hk
    trivial
  split at hk
  · cases hk
    trivial
  split at hk
  · cases hk
    exact Text.isQuotable_quoted r
  split at hk
  · cases hk
    trivial
  split at hk
  · cases hk
    trivial
  split at hk
  · rename_i hstart
    cases hk
    apply clean_ofWord
    rw [Text.isWord, hstart, Bool.true_and]
    exact List.all_takeWhile
  · cases hk

section

variable {ts : List (Token Kind)}

private theorem clean_of_suffix {us : List (Token Kind)} (h : ∀ t ∈ ts, t.kind.Clean) (hs : us <:+ ts) :
    ∀ t ∈ us, t.kind.Clean :=
  fun t ht => h t (hs.subset ht)

private theorem clean_of_skipBreaks {t : Token Kind} {us : List (Token Kind)} (h : ∀ t ∈ ts, t.kind.Clean)
    (hs : skipBreaks ts = t :: us) : t.kind.Clean ∧ ∀ t ∈ us, t.kind.Clean := by
  have hmem : t ∈ skipBreaks ts := by
    rw [hs]
    exact List.mem_cons_self
  exact ⟨h t ((skipTokens_suffix _ ts).subset hmem), clean_of_suffix h (suffix_of_skipTokens hs)⟩

/-! ### Statements -/

private theorem clean_readAttribute {type name : Text} (ht : isName type = true) (hn : isName name = true)
    (h : ∀ t ∈ ts, t.kind.Clean) : (readAttribute type name ts).1.Clean := by
  refine ⟨hn, ht, ?_⟩
  have hrest := clean_of_suffix h (readKeys_suffix ts)
  show ∀ t ∈ (readComment (readKeys ts).2).1, _
  unfold readComment
  split
  · rename_i value place us heq
    rw [heq] at hrest
    intro t ht
    cases ht
    exact hrest _ List.mem_cons_self
  · simp

private theorem clean_readBlock (h : ∀ t ∈ ts, t.kind.Clean) :
    ∀ a ∈ (readBlock ts).entries.filterMap Entry.attribute?, a.Clean := by
  fun_induction readBlock ts with
  | case1 => simp
  | case2 => simp
  | case3 type p name q ts read ih =>
    rw [List.forall_mem_cons, List.forall_mem_cons] at h
    intro a ha
    rcases List.mem_cons.1 ha with rfl | ha
    · exact clean_readAttribute h.1 h.2.1 h.2.2
    · exact ih (clean_of_suffix h.2.2 (readAttribute_suffix type name ts)) a ha
  | case4 type place ts _ ih => exact ih fun t ht => h t (List.mem_cons_of_mem _ ht)
  | case5 t ts _ _ _ ih => exact ih fun u hu => h u (List.mem_cons_of_mem t hu)

private theorem quotable_readLabel (h : ∀ t ∈ ts, t.kind.Clean) :
    ∀ label ∈ (readLabel ts).1, Text.isQuotable label = true := by
  unfold readLabel
  split
  · rename_i hcolon
    have h := (clean_of_skipBreaks h hcolon).2
    split
    · rename_i w place us hlabel
      intro label hl
      cases hl
      exact Text.isQuotable_of_isWord (isWord_of_isName (clean_of_skipBreaks h hlabel).1)
    · rename_i value place us hlabel
      intro label hl
      cases hl
      exact (clean_of_skipBreaks h hlabel).1
    · simp
  · simp

private theorem clean_readStatement {name : Text} (hn : isName name = true) (h : ∀ t ∈ ts, t.kind.Clean) :
    (readStatement name ts).1.Clean := by
  unfold readStatement
  split
  · rename_i hopen
    exact ⟨hn, clean_readBlock (clean_of_skipBreaks h hopen).2⟩
  · rename_i hsymbol
    have h := (clean_of_skipBreaks h hsymbol).2
    split
    · rename_i htarget
      obtain ⟨ht, h⟩ := clean_of_skipBreaks h htarget
      exact ⟨hn, ht, quotable_readLabel h⟩
    · trivial
  · exact hn

private theorem clean_of_mem_statements (h : ∀ t ∈ ts, t.kind.Clean) : ∀ st ∈ statements ts, st.Clean := by
  fun_induction statements ts with
  | case1 => simp
  | case2 _ ts ih => exact ih fun u hu => h u (List.mem_cons_of_mem _ hu)
  | case3 _ _ ts ih => exact ih fun u hu => h u (List.mem_cons_of_mem _ hu)
  | case4 name place ts read ih =>
    have hts : ∀ u ∈ ts, u.kind.Clean := fun u hu => h u (List.mem_cons_of_mem _ hu)
    intro st hst
    rcases List.mem_cons.1 hst with rfl | hst
    · exact clean_readStatement (h _ List.mem_cons_self) hts
    · exact ih (clean_of_suffix hts (readStatement_suffix name ts)) st hst
  | case5 kind place ts _ _ _ ih =>
    intro st hst
    rcases List.mem_cons.1 hst with rfl | hst
    · trivial
    · exact ih (fun u hu => h u (List.mem_cons_of_mem _ hu)) st hst

theorem clean_of_mem_document (h : ∀ t ∈ ts, t.kind.Clean) : ∀ st ∈ document ts, st.Clean := by
  unfold document
  split
  · rename_i hheader
    exact clean_of_mem_statements (clean_of_skipBreaks h hheader).2
  · exact clean_of_mem_statements (clean_of_suffix h (skipTokens_suffix _ ts))

end

/-! ### Diagrams -/

private theorem writable_toDiagram {sts : List Statement} (h : ∀ st ∈ sts, st.Clean) :
    (Schema.ofStatements sts).toDiagram.Writable := by
  have hnodup := Schema.nodup_names_ofStatements sts
  refine ⟨Schema.nodup_ids_toDiagram _, ?_, ?_, ?_⟩
  · intro e he
    have hname : e.name ∈ (Schema.ofStatements sts).names := by
      rw [← Schema.map_name_toDiagram]
      exact List.mem_map_of_mem he
    obtain ⟨st, hst, hmem⟩ := Schema.mem_names_ofStatements.1 hname
    have hclean := h st hst
    cases st with
    | mention name => rwa [List.mem_singleton.1 hmem]
    | block name entries closed =>
      rw [List.mem_singleton.1 hmem]
      exact hclean.1
    | relation r =>
      simp only [Statement.names, List.mem_cons, List.not_mem_nil, or_false] at hmem
      rcases hmem with hmem | hmem
      · rw [hmem]
        exact hclean.1
      · rw [hmem]
        exact hclean.2.1
    | _ => cases hmem
  · intro e he a ha
    rw [Schema.attributes_of_mem_toDiagram hnodup he, Schema.attributes_ofStatements] at ha
    obtain ⟨st, hst, hmem⟩ := List.mem_flatMap.1 ha
    cases st with
    | block name entries closed =>
      simp only [Statement.attributesOf] at hmem
      split at hmem
      · exact (h _ hst).2 a hmem
      · cases hmem
    | _ => cases hmem
  · intro r hr
    obtain ⟨r, hmem, rfl⟩ := List.mem_map.1 hr
    rw [Schema.relations_ofStatements] at hmem
    obtain ⟨st, hst, hrelation⟩ := List.mem_filterMap.1 hmem
    cases st with
    | relation r' =>
      cases hrelation
      exact (h _ hst).2.2
    | _ => cases hrelation

/-- The diagram of a text can be written, and no two of its entities share a name. -/
theorem writable_of_read {s : Text} {d : Diagram} (h : (read s).outcome = .ok d) :
    d.Writable ∧ (d.entities.map Entity.name).Nodup := by
  obtain ⟨-, rfl⟩ := Reading.ofFaults_eq_ok_iff.1 h
  constructor
  · apply writable_toDiagram
    apply clean_of_mem_document
    intro t ht
    apply clean_of_mem_kinds (s := s)
    rw [← map_kind_tokenize]
    exact List.mem_map_of_mem ht
  · rw [Schema.map_name_toDiagram]
    exact Schema.nodup_names_ofStatements _

/-! ### What a text leaves to say -/

private theorem nullable_readBlock (ts : List (Token Kind)) :
    ∀ a ∈ (readBlock ts).entries.filterMap Entry.attribute?, a.isNullable = !a.isPrimaryKey := by
  fun_induction readBlock ts with
  | case1 => simp
  | case2 => simp
  | case3 type p name q ts read ih =>
    intro a ha
    rcases List.mem_cons.1 ha with rfl | ha
    · rfl
    · exact ih a ha
  | case4 type place ts _ ih => exact ih
  | case5 t ts _ _ _ ih => exact ih

private theorem nullable_statements (ts : List (Token Kind)) :
    ∀ st ∈ statements ts, ∀ n, ∀ a ∈ st.attributesOf n, a.isNullable = !a.isPrimaryKey := by
  fun_induction statements ts with
  | case1 => simp
  | case2 _ ts ih => exact ih
  | case3 _ ts _ ih => exact ih
  | case4 name place ts read ih =>
    intro st hst n a ha
    rcases List.mem_cons.1 hst with rfl | hst
    · -- only a block gives attributes
      revert ha
      simp only [read]
      unfold readStatement
      split
      · simp only [Statement.attributesOf]
        split
        · exact nullable_readBlock _ a
        · simp
      · split <;> simp [Statement.attributesOf]
      · simp [Statement.attributesOf]
    · exact ih st hst n a ha
  | case5 kind place ts _ _ _ ih =>
    intro st hst n a ha
    rcases List.mem_cons.1 hst with rfl | hst
    · cases ha
    · exact ih st hst n a ha

/-- In a text an attribute is null if and only if it is no primary key. -/
theorem nullable_of_read {s : Text} {d : Diagram} (h : (read s).outcome = .ok d) :
    ∀ e ∈ d.entities, ∀ a ∈ e.attributes, a.isNullable = !a.isPrimaryKey := by
  obtain ⟨-, rfl⟩ := Reading.ofFaults_eq_ok_iff.1 h
  intro e he a ha
  rw [Schema.attributes_of_mem_toDiagram (Schema.nodup_names_ofStatements _) he, Schema.attributes_ofStatements] at ha
  obtain ⟨st, hst, hmem⟩ := List.mem_flatMap.1 ha
  have hstatements : ∃ us, document (tokenize rule s).tokens = statements us := by
    unfold document
    split
    · exact ⟨_, rfl⟩
    · exact ⟨_, rfl⟩
  obtain ⟨us, hus⟩ := hstatements
  rw [hus] at hst
  exact nullable_statements us st hst e.name a hmem

/-- In the diagram of a text both ends of every relation are known. -/
theorem resolve?_isSome_of_read {s : Text} {d : Diagram} (h : (read s).outcome = .ok d) :
    ∀ r ∈ d.relations, (d.resolve? r).isSome := by
  obtain ⟨-, rfl⟩ := Reading.ofFaults_eq_ok_iff.1 h
  exact Schema.resolve?_isSome_toDiagram fun r hr => Schema.ends_mem_names hr

end DiagramText.Er

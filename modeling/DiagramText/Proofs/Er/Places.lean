import DiagramText.Er.Reader
import DiagramText.Proofs.Breaks
import DiagramText.Proofs.Report

/-!
# Places do not matter to entity-relationship statements

Reading looks at the kinds of tokens only, and idle breaks are skipped: relaying the tokens moves the places that the
statements carry and changes nothing else (`document_relaid`).  So the outcome of a text is known from the statements of
its tokens without their places (`read_eq_ok_iff`), and texts whose statements agree but for their places have the same
outcome but for the places of errors (`outcome_congr`).
-/

namespace DiagramText.Er

/-- Line breaks and comments are no part of statements. -/
abbrev breaks : Breaks Kind := ⟨Kind.isBreak, .newline, rfl⟩

/-! ### Moved statements -/

/-- The entry with its place moved. -/
def Entry.move (f : Place → Place) : Entry → Entry
  | column a => column a
  | nameless type place => nameless type (f place)

/-- The statement with its places moved. -/
def Statement.move (f : Place → Place) : Statement → Statement
  | block name entries closed => block name (entries.map (Entry.move f)) closed
  | untargeted place => untargeted (f place)
  | skipped kind place => skipped kind (f place)
  | st => st

/-- The second block is the first with its places moved, and what is left is relaid. -/
structure Block.Relaid (f : Place → Place) (b c : Block) : Prop where
  entries : c.entries = b.entries.map (Entry.move f)
  closed : c.closed = b.closed
  rest : DiagramText.Relaid breaks f false b.rest c.rest

theorem Block.Relaid.cons {f : Place → Place} {b c : Block} (h : b.Relaid f c) (e : Entry) :
    (b.cons e).Relaid f (c.cons (e.move f)) :=
  ⟨congrArg (e.move f :: ·) h.entries, h.closed, h.rest⟩

section

variable {f : Place → Place} {behind : Bool} {ts us : List (Token Kind)}

private theorem heads_skipBreaks (h : Relaid breaks f behind ts us) : skipBreaks ts = [] ∧ skipBreaks us = [] ∨
    ∃ k p ts' us', skipBreaks ts = ⟨k, p⟩ :: ts' ∧ skipBreaks us = ⟨k, f p⟩ :: us' ∧ k ≠ .newline ∧
      Relaid breaks f false ts' us' :=
  h.skip_heads

private theorem readKeys_relaid (h : Relaid breaks f false ts us) :
    (readKeys us).1 = (readKeys ts).1 ∧ Relaid breaks f false (readKeys ts).2 (readKeys us).2 := by
  have hends : ∀ {ts}, breaks.Ends ts → readKeys ts = ([], ts) :=
    fun hts => hts.elim rfl fun _ _ => rfl
  fun_induction readKeys ts generalizing us with
  | case1 k w p ts ih =>
    obtain ⟨hts, -⟩ | ⟨_, _, ts', us', hts, rfl, -, hrest⟩ := h.heads
    · cases hts _ rfl
    · cases hts
      obtain ⟨hkeys, hrest⟩ := ih hrest
      exact ⟨congrArg (k :: ·) hkeys, hrest⟩
  | case2 ts hkey =>
    obtain ⟨-, hus⟩ | ⟨k, p, ts', us', rfl, rfl, -, -⟩ := h.heads
    · rw [hends hus]
      exact ⟨rfl, h⟩
    · cases k with
      | key k w => exact absurd rfl (hkey k w p ts')
      | _ => exact ⟨rfl, h⟩

private theorem readComment_relaid (h : Relaid breaks f false ts us) :
    (readComment us).1 = (readComment ts).1 ∧ Relaid breaks f false (readComment ts).2 (readComment us).2 := by
  have hends : ∀ {ts}, breaks.Ends ts → readComment ts = (none, ts) :=
    fun hts => hts.elim rfl fun _ _ => rfl
  obtain ⟨hts, hus⟩ | ⟨k, p, ts', us', rfl, rfl, -, hrest⟩ := h.heads
  · rw [hends hts, hends hus]
    exact ⟨rfl, h⟩
  · cases k with
    | string value => exact ⟨rfl, hrest⟩
    | _ => exact ⟨rfl, h⟩

private theorem readAttribute_relaid (type name : Text) (h : Relaid breaks f false ts us) :
    (readAttribute type name us).1 = (readAttribute type name ts).1 ∧
      Relaid breaks f false (readAttribute type name ts).2 (readAttribute type name us).2 := by
  obtain ⟨hkeys, hrest⟩ := readKeys_relaid h
  obtain ⟨hcomment, hrest⟩ := readComment_relaid hrest
  refine ⟨?_, hrest⟩
  simp only [readAttribute, hkeys, hcomment]

theorem readBlock_skipBreaks (ts : List (Token Kind)) : readBlock (skipBreaks ts) = readBlock ts := by
  refine read_skipTokens (fun t ts h => ?_) ts
  obtain ⟨k, p⟩ := t
  cases k with
  | newline => rw [readBlock] <;> simp
  | comment w => rw [readBlock] <;> simp
  | _ => cases h

/-- A type that no name follows. -/
theorem readBlock_nameless (type : Text) (p : Place) (h : ∀ name q us, ts ≠ ⟨.word name, q⟩ :: us) :
    readBlock (⟨.word type, p⟩ :: ts) = (readBlock ts).cons (.nameless type p) := by
  rw [readBlock]
  exact h

private theorem readBlock_relaid (h : Relaid breaks f behind ts us) : (readBlock ts).Relaid f (readBlock us) := by
  induction hn : ts.length using Nat.strongRecOn generalizing ts us behind with
  | ind n ih =>
    subst hn
    rw [← readBlock_skipBreaks ts, ← readBlock_skipBreaks us]
    obtain ⟨hts, hus⟩ | ⟨k, p, ts', us', hts, hus, -, hrest⟩ := heads_skipBreaks h
    · rw [hts, hus, readBlock]
      exact ⟨rfl, rfl, .nil⟩
    · have hlt : ts'.length < ts.length := length_of_skipTokens hts
      rw [hts, hus]
      cases k with
      | closeBrace =>
        rw [readBlock, readBlock]
        exact ⟨rfl, rfl, hrest⟩
      | word type =>
        have hends : ∀ {ts}, breaks.Ends ts → ∀ name q us, ts ≠ ⟨.word name, q⟩ :: us := by
          rintro ts hts name q us rfl
          cases hts _ rfl
        obtain ⟨hts, hus⟩ | ⟨k, q, ts'', us'', rfl, rfl, -, hrest'⟩ := hrest.heads
        · rw [readBlock_nameless type p (hends hts), readBlock_nameless type (f p) (hends hus)]
          exact (ih _ hlt hrest rfl).cons _
        · cases k with
          | word name =>
            obtain ⟨hattribute, hbehind⟩ := readAttribute_relaid type name hrest'
            have hle := (readAttribute_suffix type name ts'').length_le
            rw [List.length_cons] at hlt
            rw [readBlock, readBlock, hattribute]
            exact (ih _ (by omega) hbehind rfl).cons _
          | _ =>
            rw [readBlock_nameless type p (by simp), readBlock_nameless type (f p) (by simp)]
            exact (ih _ hlt hrest rfl).cons _
      | _ => rw [readBlock, readBlock] <;> first | exact ih _ hlt hrest rfl | simp

private theorem readLabel_relaid (h : Relaid breaks f false ts us) :
    (readLabel us).1 = (readLabel ts).1 ∧ Relaid breaks f false (readLabel ts).2 (readLabel us).2 := by
  unfold readLabel
  obtain ⟨hts, hus⟩ | ⟨k, p, ts', us', hts, hus, hkind, hrest⟩ := heads_skipBreaks h
  · rw [hts, hus]
    exact ⟨rfl, .nil⟩
  · rw [hts, hus]
    cases k with
    | colon =>
      dsimp only
      obtain ⟨hts, hus⟩ | ⟨k, p, ts', us', hts, hus, hkind, hrest⟩ := heads_skipBreaks hrest
      · rw [hts, hus]
        exact ⟨rfl, .nil⟩
      · rw [hts, hus]
        cases k with
        | word w => exact ⟨rfl, hrest⟩
        | string s => exact ⟨rfl, hrest⟩
        | _ => exact ⟨rfl, .token hkind hrest⟩
    | _ => exact ⟨rfl, .token hkind hrest⟩

private theorem readStatement_relaid (name : Text) (h : Relaid breaks f false ts us) :
    (readStatement name us).1 = (readStatement name ts).1.move f ∧
      Relaid breaks f false (readStatement name ts).2 (readStatement name us).2 := by
  unfold readStatement
  obtain ⟨hts, hus⟩ | ⟨k, p, ts', us', hts, hus, hkind, hrest⟩ := heads_skipBreaks h
  · rw [hts, hus]
    exact ⟨rfl, .nil⟩
  · rw [hts, hus]
    cases k with
    | openBrace =>
      obtain ⟨hentries, hclosed, hrest⟩ := readBlock_relaid hrest
      refine ⟨?_, hrest⟩
      dsimp only
      rw [hentries, hclosed]
      rfl
    | relation symbol =>
      dsimp only
      obtain ⟨hts, hus⟩ | ⟨k, q, ts', us', hts, hus, hkind, hrest⟩ := heads_skipBreaks hrest
      · rw [hts, hus]
        exact ⟨rfl, .nil⟩
      · rw [hts, hus]
        cases k with
        | word target =>
          obtain ⟨hlabel, hrest⟩ := readLabel_relaid hrest
          refine ⟨?_, hrest⟩
          dsimp only
          rw [hlabel]
          rfl
        | _ => exact ⟨rfl, .token hkind hrest⟩
    | _ => exact ⟨rfl, .token hkind hrest⟩

theorem statements_skipBreaks (ts : List (Token Kind)) : statements (skipBreaks ts) = statements ts := by
  refine read_skipTokens (fun t ts h => ?_) ts
  obtain ⟨k, p⟩ := t
  cases k with
  | newline => rw [statements]
  | comment w => rw [statements]
  | _ => cases h

theorem statements_relaid (h : Relaid breaks f behind ts us) :
    statements us = (statements ts).map (Statement.move f) := by
  induction hn : ts.length using Nat.strongRecOn generalizing ts us behind with
  | ind n ih =>
    subst hn
    rw [← statements_skipBreaks ts, ← statements_skipBreaks us]
    obtain ⟨hts, hus⟩ | ⟨k, p, ts', us', hts, hus, hkind, hrest⟩ := heads_skipBreaks h
    · rw [hts, hus, statements]
      rfl
    · have hlt : ts'.length < ts.length := length_of_skipTokens hts
      rw [hts, hus]
      cases k with
      | word name =>
        obtain ⟨hstatement, hbehind⟩ := readStatement_relaid name hrest
        have hle := (readStatement_suffix name ts').length_le
        rw [statements, statements, hstatement, ih _ (by omega) hbehind rfl]
        rfl
      | newline => exact absurd rfl hkind
      | comment w => rw [statements, statements, ih _ hlt hrest rfl]
      | _ =>
        rw [statements, statements, ih _ hlt hrest rfl] <;> first | rfl | simp

/-- Relaying the tokens of a text moves the places of its statements, and nothing else. -/
theorem document_relaid (h : Relaid breaks f behind ts us) :
    document us = (document ts).map (Statement.move f) := by
  unfold document
  have hskip : Relaid breaks f false (skipBreaks ts) (skipBreaks us) := h.skip
  obtain ⟨hts, hus⟩ | ⟨k, p, ts', us', hts, hus, hkind, hrest⟩ := heads_skipBreaks h
  · rw [hts, hus] at hskip ⊢
    exact statements_relaid hskip
  · rw [hts, hus] at hskip ⊢
    cases k with
    | header => exact statements_relaid hrest
    | _ => exact statements_relaid hskip

end

/-- Moving the tokens of a text moves the places of its statements, and nothing else. -/
theorem document_map_move (f : Place → Place) (ts : List (Token Kind)) :
    document (ts.map (Token.move f)) = (document ts).map (Statement.move f) :=
  document_relaid (Relaid.map_move breaks f ts false)

/-! ### What a moved statement says -/

private theorem attribute?_move (f : Place → Place) (e : Entry) : (e.move f).attribute? = e.attribute? := by
  cases e <;> rfl

theorem Schema.add_move (f : Place → Place) (s : Schema) (st : Statement) : s.add (st.move f) = s.add st := by
  cases st with
  | block name entries closed =>
    simp only [Statement.move, Schema.add, List.filterMap_map]
    congr 2
    funext e
    exact attribute?_move f e
  | _ => rfl

theorem Schema.ofStatements_map_move (f : Place → Place) (sts : List Statement) :
    Schema.ofStatements (sts.map (Statement.move f)) = Schema.ofStatements sts := by
  unfold Schema.ofStatements
  rw [List.foldl_map]
  congr 1
  funext s st
  exact Schema.add_move f s st

theorem Statement.errors_move (f : Place → Place) (finish : Place) (st : Statement) :
    (st.move f).errors (f finish) = (st.errors finish).map (ParseError.move f) := by
  cases st with
  | block name entries closed =>
    have hentries : ∀ e : Entry, (e.move f).error? = e.error?.map (ParseError.move f) := by
      rintro (a | ⟨type, place⟩) <;> rfl
    have hclosed : (if closed then [] else [⟨f finish, .openEntityBlock⟩] : List ParseError) =
        ((if closed then [] else [⟨finish, .openEntityBlock⟩] : List ParseError)).map (ParseError.move f) := by
      cases closed <;> rfl
    simp only [move, errors, List.filterMap_map, List.map_append, List.map_filterMap, Function.comp_def, hentries,
      hclosed]
  | _ => rfl

/-- Texts whose statements and whose ends agree but for the places end in the same diagram, or with errors that agree
but for their places. -/
theorem outcome_congr {s s' : Text} {f : Place → Place}
    (h : (document (tokenize rule s).tokens).map (Statement.move f) =
      (document (tokenize rule s').tokens).map (Statement.move f))
    (hfinish : f (tokenize rule s).finish = f (tokenize rule s').finish) :
    (read s).outcome.mapError (List.map (ParseError.move f)) =
      (read s').outcome.mapError (List.map (ParseError.move f)) := by
  have herrors : ∀ (finish : Place) (sts : List Statement), (sts.flatMap (·.errors finish)).map (ParseError.move f) =
      (sts.map (Statement.move f)).flatMap (·.errors (f finish)) := by
    intro finish sts
    rw [List.map_flatMap, List.flatMap_map]
    congr 1
    funext st
    exact (Statement.errors_move f finish st).symm
  apply Reading.outcome_congr
  · rw [← Schema.ofStatements_map_move f, h, Schema.ofStatements_map_move]
  · rw [herrors, h, hfinish, herrors]

/-- A text has a diagram unless a statement has an error; it is the diagram of the statements of its tokens, wherever
they stand. -/
theorem read_eq_ok_iff {s : Text} {d : Diagram} : (read s).outcome = .ok d ↔
    (∀ st ∈ document (unplaced (kinds rule s)), st.errors {} = []) ∧
      d = (Schema.ofStatements (document (unplaced (kinds rule s)))).toDiagram := by
  have hmove : document (unplaced (kinds rule s)) =
      (document (tokenize rule s).tokens).map (Statement.move fun _ => {}) := by
    rw [← document_map_move, map_move_eq_unplaced, map_kind_tokenize]
  have herrors : (∀ st ∈ document (unplaced (kinds rule s)), st.errors {} = []) ↔
      (document (tokenize rule s).tokens).flatMap (·.errors (tokenize rule s).finish) = [] := by
    rw [hmove, List.flatMap_eq_nil_iff, List.forall_mem_map]
    refine forall₂_congr fun st _ => ?_
    have herrors := Statement.errors_move (fun _ => {}) (tokenize rule s).finish st
    rw [herrors, List.map_eq_nil_iff]
  rw [herrors, hmove, Schema.ofStatements_map_move, eq_comm (a := d)]
  exact Reading.ofFaults_eq_ok_iff

/-- A text whose tokens, wherever they stand, read as statements without errors has the diagram of the statements. -/
theorem read_eq_ok {s : Text} {sts : List Statement} (h : document (unplaced (kinds rule s)) = sts)
    (herr : ∀ st ∈ sts, st.errors {} = []) : (read s).outcome = .ok (Schema.ofStatements sts).toDiagram := by
  subst h
  exact read_eq_ok_iff.2 ⟨herr, rfl⟩

end DiagramText.Er

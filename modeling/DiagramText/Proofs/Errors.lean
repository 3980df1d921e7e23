import DiagramText.Diagram
import DiagramText.Proofs.Er.Parsed
import DiagramText.Proofs.Flowchart.Places
import DiagramText.Proofs.Placing
import DiagramText.Proofs.Report
import DiagramText.Proofs.Sequence.Places

/-!
# Where errors are found

Each statement passes the places of its errors: an error is found at a token of the statement, or where the reader
stops, be it at the next token or at the end of the text.  The error of an opening for which there is no room is the
last one, and found behind all others.  So the errors of a text are found at its tokens, and come in the order of the
text (`Dialect.errors_ascend`).
-/

namespace DiagramText

/-! ### Entities -/

namespace Er

variable (finish : Place)

private theorem passes_readBlock (name : Text) (ts : List (Token Kind)) :
    Passes finish ts (readBlock ts).rest
      (((Statement.block name (readBlock ts).entries (readBlock ts).closed).errors finish).map ParseError.place) := by
  fun_induction readBlock ts with
  | case1 => exact Passes.stop List.nil_suffix
  | case2 => exact Passes.nil (List.suffix_cons _ _)
  | case3 type p key q ts read ih =>
    refine ih.of_suffix ?_
    exact (readAttribute_suffix type key ts).trans ((List.suffix_cons _ _).trans (List.suffix_cons _ _))
  | case4 type p ts h ih => exact ih.cons
  | case5 t ts h₁ h₂ h₃ ih => exact ih.of_suffix (List.suffix_cons _ _)

private theorem passes_readStatement (name : Text) (ts : List (Token Kind)) :
    Passes finish ts (readStatement name ts).2 (((readStatement name ts).1.errors finish).map ParseError.place) := by
  unfold readStatement
  split
  · rename_i h
    exact (passes_readBlock finish name _).of_suffix (suffix_of_skipTokens h)
  · rename_i symbol p us h
    have hus : ⟨.relation symbol, p⟩ :: us <:+ ts := h ▸ skipTokens_suffix Kind.isBreak ts
    split
    · rename_i h'
      refine (Passes.nil ?_).of_suffix hus
      exact ((readLabel_suffix _).trans (suffix_of_skipTokens h')).trans (List.suffix_cons _ us)
    · exact (Passes.head (skipTokens_suffix _ us)).of_suffix hus
  · exact Passes.nil (skipTokens_suffix _ ts)

theorem ascends_statements (ts : List (Token Kind)) :
    Ascends finish ts (((statements ts).flatMap (·.errors finish)).map ParseError.place) := by
  fun_induction statements ts with
  | case1 => exact Ascends.nil
  | case2 p ts ih => exact ih.of_suffix (List.suffix_cons _ _)
  | case3 w p ts ih => exact ih.of_suffix (List.suffix_cons _ _)
  | case4 name p ts read ih =>
    rw [List.flatMap_cons, List.map_append]
    exact ((passes_readStatement finish name ts).append ih).of_suffix (List.suffix_cons _ _)
  | case5 k p ts h₁ h₂ h₃ ih => exact ih.of_suffix (List.suffix_cons _ _)

theorem ascends_document (ts : List (Token Kind)) :
    Ascends finish ts (((document ts).flatMap (·.errors finish)).map ParseError.place) := by
  unfold document
  split
  · rename_i p us h
    exact (ascends_statements finish us).of_suffix (suffix_of_skipTokens h)
  · exact (ascends_statements finish _).of_suffix (skipTokens_suffix _ ts)

end Er

/-! ### Nodes and links -/

namespace Flowchart

variable (finish : Place)

private theorem passes_readTail (ts : List (Token Kind)) :
    Passes finish ts (readTail ts).rest (readTail ts).loose.toList := by
  fun_induction readTail ts with
  | case1 ts symbol l place us h t vs h' m hm tail ih =>
    exact ih.of_suffix ((suffix_of_skipTokens h').trans (suffix_of_skipTokens h))
  | case2 ts symbol l place us h t vs h' hm =>
    have hus : ⟨.link symbol l, place⟩ :: us <:+ ts := h ▸ skipTokens_suffix Kind.isBreak ts
    have hvs : t :: vs <:+ us := h' ▸ skipTokens_suffix Kind.isBreak us
    exact (Passes.head hvs).of_suffix hus
  | case3 ts symbol l place us h h' =>
    have hus : ⟨.link symbol l, place⟩ :: us <:+ ts := h ▸ skipTokens_suffix Kind.isBreak ts
    exact (Passes.head List.nil_suffix).of_suffix hus
  | case4 ts h => exact Passes.nil (skipTokens_suffix _ ts)

private theorem passes_readStatement (t : Token Kind) (ts : List (Token Kind)) :
    Passes finish ts (readStatement finish t ts).2 ((readStatement finish t ts).1.errors.map ParseError.place) := by
  unfold readStatement
  split
  · rename_i m hm
    have hplaces : (Statement.chain m (readTail ts).links (readTail ts).loose).errors.map ParseError.place =
        (readTail ts).loose.toList := by
      cases (readTail ts).loose <;> rfl
    dsimp only
    rw [hplaces]
    exact passes_readTail finish ts
  · split
    · exact Passes.nil ((readInnerDirection_suffix _).trans (readTitle_suffix ts))
    · exact Passes.nil (List.suffix_refl ts)
    · exact Passes.nil (List.suffix_refl ts)

variable (stack : Stack)

/-- The errors of statements in front of which `depth` subgraphs are open. -/
def errorsFrom (depth : Nat) (sts : List Statement) : List ParseError :=
  (Depth.front Statement.turn stack.subgraphs depth sts).flatMap Statement.errors ++
    ((Depth.rest Statement.turn stack.subgraphs depth sts).head?.bind Statement.opening?).toList.map stack.error

private theorem errorsFrom_cons (depth : Nat) (st : Statement) (sts : List Statement) :
    (errorsFrom stack depth (st :: sts)).map ParseError.place =
      if st.turn = .down ∧ stack.subgraphs ≤ depth then st.opening?.toList.map stack.place
      else st.errors.map ParseError.place ++ (errorsFrom stack (st.turn.depth depth) sts).map ParseError.place := by
  rw [errorsFrom, Depth.front, Depth.rest]
  split
  · simp only [List.flatMap_nil, List.nil_append, List.head?_cons, Option.bind_some, List.map_map]
    rfl
  · rw [← List.map_append, List.flatMap_cons, List.append_assoc]
    rfl

/-- The stack ends where a subgraph opens, or behind its title. -/
private theorem passes_opening (t : Token Kind) (ts : List (Token Kind)) :
    ∃ us, Passes finish ts us ((readStatement finish t ts).1.opening?.toList.map stack.place) := by
  obtain ⟨k, place⟩ := t
  cases k with
  | opening =>
    by_cases htitled : stack.titled = true
    · refine ⟨(readTitle ts).2, ?_⟩
      show Passes finish ts _ [stack.place _]
      rw [Stack.place, if_pos htitled]
      exact Passes.stop (readTitle_suffix ts)
    · refine ⟨ts, ?_⟩
      show Passes finish ts _ [stack.place _]
      rw [Stack.place, if_neg htitled]
      exact Passes.stop (List.suffix_refl ts)
  | _ => exact ⟨ts, Passes.nil (List.suffix_refl ts)⟩

theorem ascends_statements (depth : Nat) (ts : List (Token Kind)) :
    Ascends finish ts ((errorsFrom stack depth (statements finish ts)).map ParseError.place) := by
  fun_induction statements finish ts generalizing depth with
  | case1 => exact Ascends.nil
  | case2 t ts hbreak ih => exact (ih depth).of_suffix (List.suffix_cons _ _)
  | case3 t ts hbreak read ih =>
    rw [errorsFrom_cons]
    split
    · obtain ⟨us, hpasses⟩ := passes_opening finish stack t ts
      have hstop := hpasses.append Ascends.nil
      rw [List.append_nil] at hstop
      exact hstop.of_suffix (List.suffix_cons _ _)
    · exact ((passes_readStatement finish t ts).append (ih _)).of_suffix (List.suffix_cons _ _)

theorem ascends_document (cut : Tokens Kind) :
    Ascends cut.finish cut.tokens ((errorsIn stack (document cut).2).map ParseError.place) := by
  unfold document
  split
  · rename_i p us h
    exact (ascends_statements cut.finish stack 0 _).of_suffix ((readDirection_suffix us).trans (suffix_of_skipTokens h))
  · rename_i p us h
    exact (ascends_statements cut.finish stack 0 _).of_suffix ((readDirection_suffix us).trans (suffix_of_skipTokens h))
  · exact (ascends_statements cut.finish stack 0 _).of_suffix (skipTokens_suffix _ cut.tokens)

end Flowchart

/-! ### Participants and messages -/

namespace Sequence

variable (finish : Place) (ts : List (Token Kind))

/-- The places of the errors of a statement, of which there is at most one. -/
def Statement.errorPlaces (st : Statement) : List Place := st.error?.toList.map ParseError.place

private theorem passes_readDeclaration (kind : ParticipantKind) :
    Passes finish ts (readDeclaration finish kind ts).2 (readDeclaration finish kind ts).1.errorPlaces := by
  unfold readDeclaration
  split
  · exact Passes.stop List.nil_suffix
  · split
    · exact Passes.nil ((readDisplay_suffix _).trans (List.suffix_cons _ _))
    · exact Passes.stop (List.suffix_refl _)

private theorem passes_readMark (t : Token Kind) (keyword : Text) {mark : Text → Statement}
    (hmark : ∀ key, (mark key).error? = none) :
    Passes finish (t :: ts) (readMark keyword t.place mark ts).2 (readMark keyword t.place mark ts).1.errorPlaces := by
  unfold readMark
  split
  · exact Passes.head List.nil_suffix
  · split
    · rw [Statement.errorPlaces, hmark]
      exact Passes.nil ((List.suffix_cons _ _).trans (List.suffix_cons _ _))
    · exact Passes.head (List.suffix_refl _)

private theorem passes_readMessage (source : Text) (place : Place) :
    Passes finish ts (readMessage source place ts).2 (readMessage source place ts).1.errorPlaces := by
  unfold readMessage
  split
  · split
    · exact Passes.head List.nil_suffix
    · split
      · exact Passes.nil (((readColonText_suffix _).trans (List.suffix_cons _ _)).trans (List.suffix_cons _ _))
      · exact Passes.head (List.suffix_refl _)
  · exact Passes.nil (skipLine_suffix ts)

private theorem passes_readNote (t : Token Kind) :
    Passes finish (t :: ts) (readNote t.place ts).2 (readNote t.place ts).1.errorPlaces := by
  have hkeys := (readKeys_suffix (readPosition ts).2).trans (readPosition_suffix ts)
  unfold readNote
  dsimp only
  split
  · exact Passes.head hkeys
  · exact Passes.nil (((readColonText_suffix _).trans hkeys).trans (List.suffix_cons t ts))

private theorem passes_readStatement (inside : List BlockKind) (t : Token Kind) :
    Passes finish (t :: ts) (readStatement finish inside t ts).2
      (readStatement finish inside t ts).1.errorPlaces := by
  have hline : Passes finish (t :: ts) (skipLine ts) [] :=
    Passes.nil ((skipLine_suffix ts).trans (List.suffix_cons t ts))
  unfold readStatement
  split
  · exact (passes_readDeclaration finish ts _).of_suffix (List.suffix_cons t ts)
  · exact passes_readNote finish ts t
  · exact hline
  · exact passes_readMark finish ts t _ fun _ => rfl
  · exact passes_readMark finish ts t _ fun _ => rfl
  · exact (passes_readMessage finish ts _ _).of_suffix (List.suffix_cons t ts)
  · exact (passes_readMessage finish ts _ _).of_suffix (List.suffix_cons t ts)
  · split
    · exact hline
    · exact Passes.nil (List.suffix_cons t ts)
  · split
    · exact hline
    · exact hline
  · exact hline

variable (stack : Stack)

/-- The errors of statements in front of which `depth` blocks are open. -/
def errorsFrom (depth : Nat) (sts : List Statement) : List ParseError :=
  (Depth.front Statement.turn stack.blocks depth sts).filterMap Statement.error? ++
    ((Depth.rest Statement.turn stack.blocks depth sts).head?.bind Statement.opening?).toList.map stack.error

private theorem errorsFrom_cons (depth : Nat) (st : Statement) (sts : List Statement) :
    (errorsFrom stack depth (st :: sts)).map ParseError.place =
      if st.turn = .down ∧ stack.blocks ≤ depth then st.opening?.toList.map stack.place
      else st.errorPlaces ++ (errorsFrom stack (st.turn.depth depth) sts).map ParseError.place := by
  rw [errorsFrom, Depth.front, Depth.rest]
  split
  · simp only [List.filterMap_nil, List.nil_append, List.head?_cons, Option.bind_some, List.map_map]
    rfl
  · rw [List.filterMap_cons, Statement.errorPlaces]
    cases st.error? <;> rfl

/-- The stack ends where a block opens, or at the end of the line. -/
private theorem passes_opening (inside : List BlockKind) (t : Token Kind)
    (hdown : (readStatement finish inside t ts).1.turn = .down) :
    ∃ us, Passes finish ts us ((readStatement finish inside t ts).1.opening?.toList.map stack.place) := by
  rw [turn_readStatement] at hdown
  obtain ⟨k, place⟩ := t
  cases k with
  | opening kind behind =>
    by_cases htitled : stack.titled = true
    · refine ⟨skipLine ts, ?_⟩
      show Passes finish ts _ [stack.place _]
      rw [Stack.place, if_pos htitled]
      exact Passes.stop (skipLine_suffix ts)
    · refine ⟨ts, ?_⟩
      show Passes finish ts _ [stack.place _]
      rw [Stack.place, if_neg htitled]
      exact Passes.stop (List.suffix_refl ts)
  | closing =>
    rw [Kind.turn] at hdown
    split at hdown <;> cases hdown
  | _ => cases hdown

theorem ascends_statements (depth : Nat) (inside : List BlockKind) :
    Ascends finish ts ((errorsFrom stack depth (statements finish inside ts)).map ParseError.place) := by
  fun_induction statements finish inside ts generalizing depth with
  | case1 => exact Ascends.nil
  | case2 inside t ts hbreak ih => exact (ih depth).of_suffix (List.suffix_cons _ _)
  | case3 inside t ts hbreak read ih =>
    rw [errorsFrom_cons]
    split
    · rename_i hfull
      obtain ⟨us, hpasses⟩ := passes_opening finish ts stack inside t hfull.1
      have hstop := hpasses.append Ascends.nil
      rw [List.append_nil] at hstop
      exact hstop.of_suffix (List.suffix_cons _ _)
    · exact (passes_readStatement finish ts inside t).append (ih _)

theorem ascends_document (cut : Tokens Kind) :
    Ascends cut.finish cut.tokens ((errorsIn stack (document cut)).map ParseError.place) := by
  unfold document
  split
  · rename_i p us h
    exact (ascends_statements cut.finish us stack 0 []).of_suffix (suffix_of_skipTokens h)
  · exact (ascends_statements cut.finish _ stack 0 []).of_suffix (skipTokens_suffix _ _)

end Sequence

/-! ### All dialects -/

namespace Dialect

/-- The places of the tokens of a text, and of its end. -/
def places : Dialect → Text → List Place
  | er, s => (tokenize Er.rule s).places
  | flowchart, s => (tokenize Flowchart.rule s).places
  | sequence, s => (tokenize Sequence.rule s).places

theorem sorted_places (dialect : Dialect) (s : Text) : (dialect.places s).Pairwise (· ≤ ·) := by
  cases dialect <;> exact sorted_places_tokenize _ s

theorem within_of_mem_places {dialect : Dialect} {s : Text} {p : Place} (h : p ∈ dialect.places s) : p.Within s := by
  cases dialect <;> exact DiagramText.within_of_mem_places h

/-- A reading of a text either has a diagram, or has errors; each of them is found at a token of the text or at its end,
inside the text, and they come in the order of the text. -/
theorem errors_ascend (dialect : Dialect) (stack : Stack) (s : Text) :
    (∃ d, (dialect.read stack s).outcome = .ok d) ∨
      ∃ es, (dialect.read stack s).outcome = .error es ∧ es ≠ [] ∧
        (∀ e ∈ es, e.place ∈ dialect.places s ∧ e.place.Within s) ∧
        es.Pairwise fun e e' => e.place ≤ e'.place := by
  cases hread : (dialect.read stack s).outcome with
  | ok d => exact Or.inl ⟨d, rfl⟩
  | error es =>
    refine Or.inr ⟨es, rfl, ?_⟩
    have hes : es ≠ [] ∧ (∀ p ∈ es.map ParseError.place, p ∈ dialect.places s) ∧
        ((dialect.places s).Pairwise (· ≤ ·) → (es.map ParseError.place).Pairwise (· ≤ ·)) := by
      cases dialect
      all_goals
        obtain ⟨hne, rfl⟩ := Reading.ofFaults_eq_error_iff.1 (Reading.map_eq_error_iff.1 hread)
        refine ⟨hne, ?_⟩
      · exact ⟨(Er.ascends_document _ _).mem, (Er.ascends_document _ _).sorted⟩
      · exact ⟨(Flowchart.ascends_document stack _).mem, (Flowchart.ascends_document stack _).sorted⟩
      · exact ⟨(Sequence.ascends_document stack _).mem, (Sequence.ascends_document stack _).sorted⟩
    obtain ⟨hne, hmem, hsorted⟩ := hes
    refine ⟨hne, ?_, List.pairwise_map.1 (hsorted (dialect.sorted_places s))⟩
    intro e he
    have hplace := hmem e.place (List.mem_map_of_mem he)
    exact ⟨hplace, within_of_mem_places hplace⟩

end Dialect

end DiagramText

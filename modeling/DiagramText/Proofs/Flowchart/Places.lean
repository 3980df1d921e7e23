import DiagramText.Flowchart.Reader
import DiagramText.Proofs.Breaks
import DiagramText.Proofs.Nesting

/-!
# Places do not matter to flowchart statements

Reading looks at the kinds of tokens only, and idle breaks are skipped: relaying the tokens moves the places that the
statements carry and changes nothing else (`document_relaid`).  So the outcome of a text is known from the statements of
its tokens without their places (`read_eq_ok_iff`), and texts whose statements agree but for their places have the same
outcome but for the places of errors (`outcome_congr`).  Where the subgraphs nest no deeper than there is room for, the
stack does not matter at all (`read_eq_ok_iff_statements`).
-/

namespace DiagramText.Flowchart

/-! ### Links behind a node -/

section

variable {ts us vs : List (Token Kind)} {symbol : Text} {l : Link} {place : Place}

theorem readTail_cons {t : Token Kind} {m : Mention} (h : skipBreaks ts = ⟨.link symbol l, place⟩ :: us)
    (h' : skipBreaks us = t :: vs) (hm : t.kind.mention? = some m) :
    readTail ts = { readTail vs with links := (l, m) :: (readTail vs).links } := by
  rw [readTail]
  split
  · rename_i h₁
    rw [h] at h₁
    cases h₁
    split
    · rename_i h₂
      rw [h'] at h₂
      cases h₂
      split
      · rename_i h₃
        rw [hm] at h₃
        cases h₃
        rfl
      · rename_i h₃
        rw [hm] at h₃
        cases h₃
    · rename_i h₂
      rw [h'] at h₂
      cases h₂
  · rename_i hno
    exact absurd h (hno _ _ _ _)

theorem readTail_loose (h : skipBreaks ts = ⟨.link symbol l, place⟩ :: us)
    (h' : ∀ t vs, skipBreaks us = t :: vs → t.kind.mention? = none) :
    readTail ts = ⟨[], some place, skipBreaks us⟩ := by
  rw [readTail]
  split
  · rename_i h₁
    rw [h] at h₁
    cases h₁
    split
    · rename_i h₂
      split
      · rename_i h₃
        rw [h' _ _ h₂] at h₃
        cases h₃
      · rw [h₂]
    · rename_i h₂
      rw [h₂]
  · rename_i hno
    exact absurd h (hno _ _ _ _)

theorem readTail_nil (h : ∀ symbol l place us, skipBreaks ts ≠ ⟨.link symbol l, place⟩ :: us) :
    readTail ts = ⟨[], none, skipBreaks ts⟩ := by
  rw [readTail]
  split
  · rename_i h₁
    exact absurd h₁ (h _ _ _ _)
  · rfl

end

/-! ### Moved statements -/

/-- Line breaks and comments are no part of statements. -/
abbrev breaks : Breaks Kind := ⟨Kind.isBreak, .newline, rfl⟩

/-- The statement with its places moved. -/
def Statement.move (f : Place → Place) : Statement → Statement
  | chain first links loose => chain first links (loose.map f)
  | opening title direction o => opening title direction (o.move f)
  | closing place => closing (f place)
  | skipped kind text place => skipped kind text (f place)

/-- The second tail is the first with its places moved, and what is left is relaid. -/
structure Tail.Relaid (f : Place → Place) (a b : Tail) : Prop where
  links : b.links = a.links
  loose : b.loose = a.loose.map f
  rest : DiagramText.Relaid breaks f false a.rest b.rest

section

variable {f : Place → Place} {behind : Bool} {ts us : List (Token Kind)}

private theorem heads_skipBreaks (h : Relaid breaks f behind ts us) : skipBreaks ts = [] ∧ skipBreaks us = [] ∨
    ∃ k p ts' us', skipBreaks ts = ⟨k, p⟩ :: ts' ∧ skipBreaks us = ⟨k, f p⟩ :: us' ∧ k ≠ .newline ∧
      Relaid breaks f false ts' us' :=
  h.skip_heads

private theorem readTail_relaid (h : Relaid breaks f behind ts us) : (readTail ts).Relaid f (readTail us) := by
  induction hn : ts.length using Nat.strongRecOn generalizing ts us behind with
  | ind n ih =>
    subst hn
    have hskip : Relaid breaks f false (skipBreaks ts) (skipBreaks us) := h.skip
    obtain ⟨hts, hus⟩ | ⟨k, p, ts', us', hts, hus, -, hrest⟩ := heads_skipBreaks h
    · rw [readTail_nil (by simp [hts]), readTail_nil (by simp [hus])]
      exact ⟨rfl, rfl, hskip⟩
    · cases k with
      | link symbol l =>
        obtain ⟨hts', hus'⟩ | ⟨k, q, ts'', us'', hts', hus', -, hrest'⟩ := heads_skipBreaks hrest
        · rw [readTail_loose hts (by simp [hts']), readTail_loose hus (by simp [hus'])]
          exact ⟨rfl, rfl, hrest.skip⟩
        · cases hm : k.mention? with
          | some m =>
            have hlt := length_of_skipTokens hts
            have hlt' := length_of_skipTokens hts'
            obtain ⟨hlinks, hloose, hbehind⟩ := ih _ (by omega) hrest' rfl
            rw [readTail_cons hts hts' hm, readTail_cons hus hus' hm]
            exact ⟨congrArg (_ :: ·) hlinks, hloose, hbehind⟩
          | none =>
            rw [readTail_loose hts, readTail_loose hus]
            · exact ⟨rfl, rfl, hrest.skip⟩
            · intro t vs ht
              rw [hus'] at ht
              cases ht
              exact hm
            · intro t vs ht
              rw [hts'] at ht
              cases ht
              exact hm
      | _ =>
        rw [readTail_nil (by simp [hts]), readTail_nil (by simp [hus])]
        exact ⟨rfl, rfl, hskip⟩

private theorem readWords_relaid (h : Relaid breaks f false ts us) :
    (readTitle.readWords us).1 = (readTitle.readWords ts).1 ∧
      Relaid breaks f false (readTitle.readWords ts).2 (readTitle.readWords us).2 := by
  have hends : ∀ {ts}, breaks.Ends ts → readTitle.readWords ts = ([], ts) :=
    fun hts => hts.elim rfl fun _ _ => rfl
  fun_induction readTitle.readWords ts generalizing us with
  | case1 w p ts ih =>
    obtain ⟨hts, -⟩ | ⟨_, _, ts', us', hts, rfl, -, hrest⟩ := h.heads
    · cases hts _ rfl
    · cases hts
      obtain ⟨hwords, hrest⟩ := ih hrest
      exact ⟨congrArg (w :: ·) hwords, hrest⟩
  | case2 ts hword =>
    obtain ⟨-, hus⟩ | ⟨k, p, ts', us', rfl, rfl, -, -⟩ := h.heads
    · rw [hends hus]
      exact ⟨rfl, h⟩
    · cases k with
      | word w => exact absurd rfl (hword w p ts')
      | _ => exact ⟨rfl, h⟩

private theorem readTitle_relaid (h : Relaid breaks f false ts us) :
    (readTitle us).1 = (readTitle ts).1 ∧ Relaid breaks f false (readTitle ts).2 (readTitle us).2 := by
  have hends : ∀ {ts}, breaks.Ends ts → readTitle ts = ([], ts) :=
    fun hts => hts.elim rfl fun _ _ => rfl
  obtain ⟨hts, hus⟩ | ⟨k, p, ts', us', rfl, rfl, -, hrest⟩ := h.heads
  · rw [hends hts, hends hus]
    exact ⟨rfl, h⟩
  · obtain ⟨hwords, hbehind⟩ := readWords_relaid h
    cases k with
    | node w shape label => exact ⟨rfl, hrest⟩
    | _ => exact ⟨congrArg Text.unwords hwords, hbehind⟩

private theorem readDirection_relaid (h : Relaid breaks f behind ts us) :
    (readDirection us).1 = (readDirection ts).1 ∧ Relaid breaks f false (readDirection ts).2 (readDirection us).2 := by
  unfold readDirection
  obtain ⟨hts, hus⟩ | ⟨k, p, ts', us', hts, hus, hkind, hrest⟩ := heads_skipBreaks h
  · rw [hts, hus]
    exact ⟨rfl, .nil⟩
  · rw [hts, hus]
    cases k with
    | direction d => exact ⟨rfl, hrest⟩
    | _ => exact ⟨rfl, .token hkind hrest⟩

private theorem readInnerDirection_relaid (h : Relaid breaks f behind ts us) :
    (readInnerDirection us).1 = (readInnerDirection ts).1 ∧
      Relaid breaks f false (readInnerDirection ts).2 (readInnerDirection us).2 := by
  unfold readInnerDirection
  obtain ⟨hts, hus⟩ | ⟨k, p, ts', us', hts, hus, hkind, hrest⟩ := heads_skipBreaks h
  · rw [hts, hus]
    exact ⟨rfl, .nil⟩
  · rw [hts, hus]
    cases k with
    | keyword w =>
      cases w with
      | direction => exact readDirection_relaid hrest
      | _ => exact ⟨rfl, .token hkind hrest⟩
    | _ => exact ⟨rfl, .token hkind hrest⟩

private theorem readStatement_relaid (finish : Place) (t : Token Kind) (h : Relaid breaks f false ts us) :
    (readStatement (f finish) (t.move f) us).1 = (readStatement finish t ts).1.move f ∧
      Relaid breaks f false (readStatement finish t ts).2 (readStatement (f finish) (t.move f) us).2 := by
  obtain ⟨k, p⟩ := t
  have hchain : ∀ {k : Kind} {m : Mention}, k.mention? = some m →
      (readStatement (f finish) ⟨k, f p⟩ us).1 = (readStatement finish ⟨k, p⟩ ts).1.move f ∧
        Relaid breaks f false (readStatement finish ⟨k, p⟩ ts).2 (readStatement (f finish) ⟨k, f p⟩ us).2 := by
    intro k m hm
    obtain ⟨hlinks, hloose, hrest⟩ := readTail_relaid h
    simp only [readStatement, hm, hlinks, hloose]
    exact ⟨rfl, hrest⟩
  cases k with
  | word w => exact hchain rfl
  | node w shape label => exact hchain rfl
  | opening =>
    obtain ⟨htitle, hbehind⟩ := readTitle_relaid h
    obtain ⟨hdirection, hrest⟩ := readInnerDirection_relaid hbehind
    simp only [readStatement, Token.move, Kind.mention?, htitle, hdirection, h.startOf, hbehind.startOf]
    exact ⟨rfl, hrest⟩
  | _ => exact ⟨rfl, h⟩

theorem statements_break (finish : Place) {t : Token Kind} (h : t.kind.isBreak = true) (ts : List (Token Kind)) :
    statements finish (t :: ts) = statements finish ts := by
  rw [statements, if_pos h]

theorem statements_start (finish : Place) {t : Token Kind} (h : t.kind.isBreak = false) (ts : List (Token Kind)) :
    statements finish (t :: ts) =
      (readStatement finish t ts).1 :: statements finish (readStatement finish t ts).2 := by
  rw [statements, if_neg (by simp [h])]

theorem statements_skipBreaks (finish : Place) (ts : List (Token Kind)) :
    statements finish (skipBreaks ts) = statements finish ts :=
  read_skipTokens (fun _ ts h => statements_break finish h ts) ts

theorem statements_relaid (finish : Place) (h : Relaid breaks f behind ts us) :
    statements (f finish) us = (statements finish ts).map (Statement.move f) := by
  induction hn : ts.length using Nat.strongRecOn generalizing ts us behind with
  | ind n ih =>
    subst hn
    rw [← statements_skipBreaks finish ts, ← statements_skipBreaks (f finish) us]
    obtain ⟨hts, hus⟩ | ⟨k, p, ts', us', hts, hus, hkind, hrest⟩ := heads_skipBreaks h
    · rw [hts, hus, statements, statements]
      rfl
    · have hlt : ts'.length < ts.length := length_of_skipTokens hts
      rw [hts, hus]
      cases hbreak : k.isBreak with
      | true =>
        rw [statements_break finish hbreak, statements_break (f finish) hbreak]
        exact ih _ hlt hrest rfl
      | false =>
        obtain ⟨hstatement, hbehind⟩ := readStatement_relaid finish ⟨k, p⟩ hrest
        have hle := (readStatement_suffix finish ⟨k, p⟩ ts').length_le
        rw [statements_start finish hbreak, statements_start (f finish) hbreak, List.map_cons, ← hstatement,
          ← ih _ (by omega) hbehind rfl]
        rfl

/-- Relaying the tokens of a text moves the places of its statements, and nothing else. -/
theorem document_relaid (finish : Place) (h : Relaid breaks f behind ts us) :
    document ⟨us, f finish⟩ =
      ((document ⟨ts, finish⟩).1, (document ⟨ts, finish⟩).2.map (Statement.move f)) := by
  unfold document
  dsimp only
  have hskip : Relaid breaks f false (skipBreaks ts) (skipBreaks us) := h.skip
  obtain ⟨hts, hus⟩ | ⟨k, p, ts', us', hts, hus, hkind, hrest⟩ := heads_skipBreaks h
  · rw [hts, hus] at hskip ⊢
    exact congrArg (Prod.mk _) (statements_relaid finish hskip)
  · rw [hts, hus] at hskip ⊢
    cases k with
    | keyword w =>
      cases w with
      | direction => exact congrArg (Prod.mk _) (statements_relaid finish hskip)
      | _ =>
        obtain ⟨hdirection, hrest⟩ := readDirection_relaid hrest
        dsimp only
        rw [hdirection, statements_relaid finish hrest]
    | _ => exact congrArg (Prod.mk _) (statements_relaid finish hskip)

end

/-- Moving the tokens of a text moves the places of its statements, and nothing else. -/
theorem document_map_move (f : Place → Place) (cut : Tokens Kind) :
    document ⟨cut.tokens.map (Token.move f), f cut.finish⟩ =
      ((document cut).1, (document cut).2.map (Statement.move f)) :=
  document_relaid cut.finish (Relaid.map_move breaks f cut.tokens false)

/-! ### What a moved statement says -/

theorem Draft.add_move (f : Place → Place) (d : Draft) (st : Statement) : d.add (st.move f) = d.add st := by
  cases st <;> rfl

theorem Draft.ofStatements_map_move (f : Place → Place) (sts : List Statement) :
    Draft.ofStatements (sts.map (Statement.move f)) = Draft.ofStatements sts := by
  unfold Draft.ofStatements
  rw [List.foldl_map]
  congr 1
  funext d st
  exact Draft.add_move f d st

theorem Statement.errors_move (f : Place → Place) (st : Statement) :
    (st.move f).errors = st.errors.map (ParseError.move f) := by
  cases st with
  | chain first links loose => cases loose <;> rfl
  | _ => rfl

theorem Statement.errors_move_eq_nil {f : Place → Place} {st : Statement} :
    (st.move f).errors = [] ↔ st.errors = [] := by
  rw [errors_move, List.map_eq_nil_iff]

theorem Statement.turn_move (f : Place → Place) (st : Statement) : (st.move f).turn = st.turn := by cases st <;> rfl

theorem Statement.opening?_move (f : Place → Place) (st : Statement) :
    (st.move f).opening? = st.opening?.map (Opening.move f) := by
  cases st <;> rfl

theorem Statement.opening?_isSome (st : Statement) (h : st.turn = .down) : st.opening?.isSome := by
  cases st with
  | opening => rfl
  | _ => cases h

/-! ### Outcomes -/

theorem front_map_move (stack : Stack) (f : Place → Place) (sts : List Statement) :
    front stack (sts.map (Statement.move f)) = (front stack sts).map (Statement.move f) :=
  Depth.front_map (Statement.turn_move f)

theorem errorsIn_map_move (stack : Stack) (f : Place → Place) (sts : List Statement) :
    errorsIn stack (sts.map (Statement.move f)) = (errorsIn stack sts).map (ParseError.move f) := by
  have hstop : stop? stack (sts.map (Statement.move f)) = (stop? stack sts).map (Opening.move f) := by
    rw [stop?, stop?, Depth.rest_map (Statement.turn_move f), List.head?_map, Option.bind_map, Option.map_bind]
    exact congrArg (Option.bind _) (funext fun st => st.opening?_move f)
  have herror : stack.error ∘ Opening.move f = ParseError.move f ∘ stack.error := funext (stack.error_move f)
  rw [errorsIn, errorsIn, front_map_move, hstop, List.map_append, List.flatMap_map, List.map_flatMap,
    Option.toList_map, List.map_map, List.map_map, herror]
  congr 2
  funext st
  exact st.errors_move f

/-- There are no errors if no statement has any and there is room for all subgraphs that are open at once. -/
theorem errorsIn_eq_nil {stack : Stack} {sts : List Statement} : errorsIn stack sts = [] ↔
    Depth.deepest Statement.turn 0 sts ≤ stack.subgraphs ∧ ∀ st ∈ sts, st.errors = [] := by
  have hstop : stop? stack sts = none ↔ Depth.deepest Statement.turn 0 sts ≤ stack.subgraphs :=
    Depth.stop_eq_none fun st => st.opening?_isSome
  rw [errorsIn, List.append_eq_nil_iff, List.map_eq_nil_iff, Option.toList_eq_nil_iff, hstop, and_comm]
  refine and_congr_right fun hroom => ?_
  rw [front, Depth.front_of_deepest hroom, List.flatMap_eq_nil_iff]

/-- A text has a diagram unless a link leads nowhere or its subgraphs nest too deep; it is the diagram of its
statements. -/
theorem read_eq_ok_iff_statements {stack : Stack} {s : Text} {d : Diagram} : (read stack s).outcome = .ok d ↔
    Depth.deepest Statement.turn 0 (document (tokenize rule s)).2 ≤ stack.subgraphs ∧
      (∀ st ∈ (document (tokenize rule s)).2, st.errors = []) ∧
      d = (Draft.ofStatements (document (tokenize rule s)).2).toDiagram (document (tokenize rule s)).1 := by
  rw [← and_assoc, ← errorsIn_eq_nil]
  refine Reading.ofFaults_eq_ok_iff.trans (and_congr_right fun hnil => ?_)
  rw [front, Depth.front_of_deepest (errorsIn_eq_nil.1 hnil).1]
  exact eq_comm

/-- Texts whose directions and whose statements, but for their places, agree end in the same diagram, or with errors
that agree but for their places. -/
theorem outcome_congr (stack : Stack) {s s' : Text} {f : Place → Place}
    (hdirection : (document (tokenize rule s)).1 = (document (tokenize rule s')).1)
    (h : (document (tokenize rule s)).2.map (Statement.move f) =
      (document (tokenize rule s')).2.map (Statement.move f)) :
    (read stack s).outcome.mapError (List.map (ParseError.move f)) =
      (read stack s').outcome.mapError (List.map (ParseError.move f)) := by
  apply Reading.outcome_congr
  · rw [hdirection, ← Draft.ofStatements_map_move f, ← front_map_move, h, front_map_move, Draft.ofStatements_map_move]
  · have herrors := congrArg (errorsIn stack) h
    rwa [errorsIn_map_move, errorsIn_map_move] at herrors

/-- A text has a diagram unless a link leads nowhere or its subgraphs nest too deep; it is the diagram of the statements
of its tokens, wherever they stand. -/
theorem read_eq_ok_iff {stack : Stack} {s : Text} {d : Diagram} : (read stack s).outcome = .ok d ↔
    Depth.deepest Statement.turn 0 (document ⟨unplaced (kinds rule s), {}⟩).2 ≤ stack.subgraphs ∧
      (∀ st ∈ (document ⟨unplaced (kinds rule s), {}⟩).2, st.errors = []) ∧
      d = (Draft.ofStatements (document ⟨unplaced (kinds rule s), {}⟩).2).toDiagram
        (document ⟨unplaced (kinds rule s), {}⟩).1 := by
  have hmove : document ⟨unplaced (kinds rule s), {}⟩ = ((document (tokenize rule s)).1,
      (document (tokenize rule s)).2.map (Statement.move fun _ => {})) := by
    rw [← document_map_move, map_move_eq_unplaced, map_kind_tokenize]
  rw [read_eq_ok_iff_statements, hmove, Depth.deepest_map (Statement.turn_move _), List.forall_mem_map,
    Draft.ofStatements_map_move]
  simp only [Statement.errors_move_eq_nil]

end DiagramText.Flowchart

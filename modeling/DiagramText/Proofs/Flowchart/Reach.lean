import DiagramText.Proofs.Flowchart.Parsed

/-!
# How far a chart is read

No reader looks past a token that opens a subgraph: what stands in front of it is read as if the text ended there
(`document_append_opening`).  The brackets of a text, the tokens that open and close its subgraphs, are those of its
statements (`brackets_document`).  So the statements that are read are those of the tokens in front of the first
subgraph for which there is no room (`front_document`).
-/

namespace DiagramText.Flowchart

/-! ### Brackets -/

/-- What opens a subgraph with its title, or closes one. -/
inductive Bracket where
  | opening (title : Text) (o : Opening)
  | closing
deriving DecidableEq, Repr

/-- What a bracket does to the number of open subgraphs. -/
def Bracket.turn : Bracket → Turn
  | opening _ _ => .down
  | closing => .up

/-- The title behind a bracket. -/
def Bracket.title? : Bracket → Option Text
  | opening title _ => some title
  | closing => none

/-- What a token does to the number of open subgraphs. -/
def Kind.turn : Kind → Turn
  | opening => .down
  | closing => .up
  | _ => .level

/-- What the tokens behind `subgraph` say of the subgraph, which opens at a place. -/
def openingAt (finish place : Place) (ts : List (Token Kind)) : Opening :=
  ⟨place, startOf finish ts, startOf finish (readTitle ts).2⟩

/-- The brackets among tokens behind which the text ends at `finish`. -/
def brackets (finish : Place) : List (Token Kind) → List Bracket
  | [] => []
  | t :: ts =>
    match t.kind with
    | .opening => .opening (readTitle ts).1 (openingAt finish t.place ts) :: brackets finish ts
    | .closing => .closing :: brackets finish ts
    | _ => brackets finish ts

/-- The bracket that a statement is. -/
def Statement.bracket? : Statement → Option Bracket
  | opening title _ o => some (.opening title o)
  | closing _ => some .closing
  | _ => none

section

variable {finish : Place} {t : Token Kind} {ts : List (Token Kind)}

theorem brackets_of_level (h : t.kind.turn = .level) (ts : List (Token Kind)) :
    brackets finish (t :: ts) = brackets finish ts := by
  obtain ⟨kind, place⟩ := t
  cases kind with
  | opening => cases h
  | closing => cases h
  | _ => rfl

private theorem opening_of_turn {k : Kind} (h : k.turn = .down) : k = .opening := by
  cases k with
  | opening => rfl
  | _ => cases h

private theorem turn_of_isBreak {k : Kind} (h : k.isBreak = true) : k.turn = .level := by
  cases k with
  | newline => rfl
  | comment text => rfl
  | _ => cases h

private theorem turn_of_mention? {k : Kind} {m : Mention} (h : k.mention? = some m) : k.turn = .level := by
  cases k with
  | word name => rfl
  | node name shape label => rfl
  | _ => cases h

private theorem brackets_skipBreaks (finish : Place) (ts : List (Token Kind)) :
    brackets finish (skipBreaks ts) = brackets finish ts :=
  read_skipTokens (fun _ ts h => brackets_of_level (turn_of_isBreak h) ts) ts

private theorem brackets_readTail (finish : Place) (ts : List (Token Kind)) :
    brackets finish (readTail ts).rest = brackets finish ts := by
  fun_induction readTail ts with
  | case1 ts symbol l place us hlink t vs hnext m hm tail ih =>
    rw [← brackets_skipBreaks finish ts, hlink]
    show brackets finish tail.rest = brackets finish us
    rw [ih, ← brackets_skipBreaks finish us, hnext, brackets_of_level (turn_of_mention? hm)]
  | case2 ts symbol l place us hlink t vs hnext hm =>
    rw [← brackets_skipBreaks finish ts, hlink, ← hnext]
    exact brackets_skipBreaks finish us
  | case3 ts symbol l place us hlink hnext =>
    rw [← brackets_skipBreaks finish ts, hlink, ← hnext]
    exact brackets_skipBreaks finish us
  | case4 ts hlink => exact brackets_skipBreaks finish ts

private theorem brackets_readWords (finish : Place) (ts : List (Token Kind)) :
    brackets finish (readTitle.readWords ts).2 = brackets finish ts := by
  fun_induction readTitle.readWords ts with
  | case1 w place ts ih => exact ih
  | case2 ts hword => rfl

private theorem brackets_readTitle (finish : Place) (ts : List (Token Kind)) :
    brackets finish (readTitle ts).2 = brackets finish ts := by
  unfold readTitle
  split
  · rfl
  · exact brackets_readWords finish _

private theorem brackets_readDirection (finish : Place) (ts : List (Token Kind)) :
    brackets finish (readDirection ts).2 = brackets finish ts := by
  rw [← brackets_skipBreaks finish ts]
  unfold readDirection
  split
  · rename_i hdirection
    rw [hdirection]
    rfl
  · rfl

private theorem brackets_readInnerDirection (finish : Place) (ts : List (Token Kind)) :
    brackets finish (readInnerDirection ts).2 = brackets finish ts := by
  rw [← brackets_skipBreaks finish ts]
  unfold readInnerDirection
  split
  · rename_i hkeyword
    rw [hkeyword]
    exact brackets_readDirection finish _
  · rfl

private theorem brackets_readStatement (finish : Place) (t : Token Kind) (ts : List (Token Kind)) :
    brackets finish (t :: ts) =
      (readStatement finish t ts).1.bracket?.toList ++ brackets finish (readStatement finish t ts).2 := by
  unfold readStatement
  split
  · rename_i m hm
    rw [brackets_of_level (turn_of_mention? hm)]
    exact (brackets_readTail finish ts).symm
  · rename_i hm
    obtain ⟨kind, place⟩ := t
    cases kind with
    | opening =>
      show _ :: brackets finish ts = _ :: brackets finish (readInnerDirection (readTitle ts).2).2
      rw [brackets_readInnerDirection, brackets_readTitle]
      rfl
    | word name => cases hm
    | node name shape label => cases hm
    | _ => rfl

private theorem brackets_statements (finish : Place) (ts : List (Token Kind)) :
    (statements finish ts).filterMap Statement.bracket? = brackets finish ts := by
  fun_induction statements finish ts with
  | case1 => rfl
  | case2 t ts hbreak ih => rw [brackets_of_level (turn_of_isBreak hbreak), ih]
  | case3 t ts hbreak read ih =>
    rw [brackets_readStatement, ← ih]
    cases hbracket : (readStatement finish t ts).1.bracket? with
    | none => exact List.filterMap_cons_none hbracket
    | some bracket => exact List.filterMap_cons_some hbracket

/-- The brackets of a text are those of its statements, whatever header it has. -/
theorem brackets_document (cut : Tokens Kind) :
    (document cut).2.filterMap Statement.bracket? = brackets cut.finish cut.tokens := by
  rw [← brackets_skipBreaks]
  rcases document_cases cut with ⟨k, place, us, hskip, hdocument⟩ | hdocument
  · rw [hdocument, hskip, brackets_statements, brackets_readDirection]
    rfl
  · rw [hdocument]
    exact brackets_statements _ _

/-- The turns of a text are those of its brackets. -/
theorem turns_tokens (finish : Place) (ts : List (Token Kind)) :
    Depth.turns (fun t : Token Kind => t.kind.turn) ts = (brackets finish ts).map Bracket.turn := by
  induction ts with
  | nil => rfl
  | cons t ts ih =>
    rw [Depth.turns_cons, ih]
    obtain ⟨kind, place⟩ := t
    cases kind <;> rfl

theorem turns_statements (sts : List Statement) :
    Depth.turns Statement.turn sts = (sts.filterMap Statement.bracket?).map Bracket.turn := by
  induction sts with
  | nil => rfl
  | cons st sts ih =>
    rw [Depth.turns_cons, ih]
    cases st <;> rfl

/-- The statements of a text open and close what its tokens do. -/
theorem turns_document (cut : Tokens Kind) :
    Depth.turns Statement.turn (document cut).2 = Depth.turns (fun t : Token Kind => t.kind.turn) cut.tokens := by
  rw [turns_statements, brackets_document, ← turns_tokens]

theorem deepest_document (cut : Tokens Kind) : Depth.deepest Statement.turn 0 (document cut).2 =
    Depth.deepest (fun t : Token Kind => t.kind.turn) 0 cut.tokens := by
  rw [← Depth.deepest_turns, turns_document, Depth.deepest_turns]

theorem depthBehind_document (cut : Tokens Kind) : Depth.depthBehind Statement.turn 0 (document cut).2 =
    Depth.depthBehind (fun t : Token Kind => t.kind.turn) 0 cut.tokens := by
  rw [← Depth.depthBehind_turns, turns_document, Depth.depthBehind_turns]

end

/-! ### In front of a subgraph -/

section

variable {t : Token Kind} (finish : Place) (us : List (Token Kind)) (h : t.kind = .opening)

private theorem startOf_append (ts : List (Token Kind)) : startOf finish (ts ++ t :: us) = startOf t.place ts := by
  cases ts <;> rfl

include h

private theorem skipBreaks_append (ts : List (Token Kind)) : skipBreaks (ts ++ t :: us) = skipBreaks ts ++ t :: us := by
  have hbreak : ¬ t.kind.isBreak = true := by rw [h]; exact Bool.false_ne_true
  induction ts with
  | nil => exact skipTokens_of_neg hbreak us
  | cons u ts ih =>
    unfold skipBreaks at ih ⊢
    by_cases hu : u.kind.isBreak = true
    · rw [List.cons_append, skipTokens_of_pos hu, skipTokens_of_pos hu, ih]
    · rw [List.cons_append, skipTokens_of_neg hu, skipTokens_of_neg hu, List.cons_append]

private theorem readTail_append (ts : List (Token Kind)) :
    readTail (ts ++ t :: us) = { readTail ts with rest := (readTail ts).rest ++ t :: us } := by
  have hskips := skipBreaks_append us h
  have hmention : t.kind.mention? = none := by rw [h]; rfl
  have hlinked : ∀ {ts symbol l place vs}, skipBreaks ts = ⟨.link symbol l, place⟩ :: vs →
      skipBreaks (ts ++ t :: us) = ⟨.link symbol l, place⟩ :: (vs ++ t :: us) := fun hts => by
    rw [hskips, hts, List.cons_append]
  fun_induction readTail ts with
  | case1 ts symbol l place vs hlink x ws hnext m hm tail ih =>
    have hbehind : skipBreaks (vs ++ t :: us) = x :: (ws ++ t :: us) := by rw [hskips, hnext, List.cons_append]
    rw [readTail_cons (hlinked hlink) hbehind hm, ih]
  | case2 ts symbol l place vs hlink x ws hnext hm =>
    have hbehind : skipBreaks (vs ++ t :: us) = x :: (ws ++ t :: us) := by rw [hskips, hnext, List.cons_append]
    rw [readTail_loose (hlinked hlink), hbehind]
    · rfl
    · intro y ys hy
      rw [hbehind] at hy
      cases hy
      exact hm
  | case3 ts symbol l place vs hlink hnext =>
    have hbehind : skipBreaks (vs ++ t :: us) = t :: us := by rw [hskips, hnext, List.nil_append]
    rw [readTail_loose (hlinked hlink), hbehind]
    · rfl
    · intro y ys hy
      rw [hbehind] at hy
      cases hy
      exact hmention
  | case4 ts hlink =>
    rw [readTail_nil, hskips]
    intro symbol l place vs hvs
    rw [hskips] at hvs
    cases hts : skipBreaks ts with
    | nil =>
      -- what comes next opens a subgraph, and is no link
      rw [hts, List.nil_append, List.cons.injEq] at hvs
      rw [hvs.1] at h
      cases h
    | cons x xs =>
      rw [hts, List.cons_append, List.cons.injEq] at hvs
      exact hlink symbol l place xs (by rw [hts, hvs.1])

private theorem readWords_append (ts : List (Token Kind)) :
    readTitle.readWords (ts ++ t :: us) =
      ((readTitle.readWords ts).1, (readTitle.readWords ts).2 ++ t :: us) := by
  fun_induction readTitle.readWords ts with
  | case1 w place ts ih =>
    rw [List.cons_append, readTitle.readWords, ih]
  | case2 ts hword =>
    cases ts with
    | nil =>
      obtain ⟨kind, place⟩ := t
      cases h
      rfl
    | cons x ts =>
      obtain ⟨kind, place⟩ := x
      cases kind with
      | word w => exact absurd rfl (hword w place ts)
      | _ => rfl

private theorem readTitle_append (ts : List (Token Kind)) :
    readTitle (ts ++ t :: us) = ((readTitle ts).1, (readTitle ts).2 ++ t :: us) := by
  have hwords := readWords_append us h
  cases ts with
  | nil =>
    obtain ⟨kind, place⟩ := t
    cases h
    rfl
  | cons x ts =>
    obtain ⟨kind, place⟩ := x
    cases kind with
    | node name shape label => rfl
    | word w =>
      have hw := hwords (⟨.word w, place⟩ :: ts)
      rw [List.cons_append] at hw
      rw [List.cons_append, readTitle, readTitle, hw]
      all_goals simp
    | _ => rfl

private theorem readDirection_append (ts : List (Token Kind)) :
    readDirection (ts ++ t :: us) = ((readDirection ts).1, (readDirection ts).2 ++ t :: us) := by
  unfold readDirection
  rw [skipBreaks_append us h]
  cases skipBreaks ts with
  | nil =>
    obtain ⟨kind, place⟩ := t
    cases h
    rfl
  | cons x ts =>
    obtain ⟨kind, place⟩ := x
    cases kind <;> rfl

private theorem readInnerDirection_append (ts : List (Token Kind)) :
    readInnerDirection (ts ++ t :: us) = ((readInnerDirection ts).1, (readInnerDirection ts).2 ++ t :: us) := by
  unfold readInnerDirection
  rw [skipBreaks_append us h]
  cases skipBreaks ts with
  | nil =>
    obtain ⟨kind, place⟩ := t
    cases h
    rfl
  | cons x ts =>
    obtain ⟨kind, place⟩ := x
    cases kind with
    | keyword k =>
      cases k with
      | direction => exact readDirection_append us h ts
      | _ => rfl
    | _ => rfl

private theorem readStatement_append (x : Token Kind) (ts : List (Token Kind)) :
    readStatement finish x (ts ++ t :: us) =
      ((readStatement t.place x ts).1, (readStatement t.place x ts).2 ++ t :: us) := by
  unfold readStatement
  cases x.kind.mention? with
  | some m =>
    dsimp only
    rw [readTail_append us h]
  | none =>
    cases x.kind with
    | opening =>
      dsimp only
      rw [readTitle_append us h, readInnerDirection_append us h, startOf_append, startOf_append]
    | _ => rfl

/-- What stands in front of a subgraph is read as if the text ended where the subgraph opens. -/
theorem statements_append_opening (ts : List (Token Kind)) :
    statements finish (ts ++ t :: us) = statements t.place ts ++ statements finish (t :: us) := by
  fun_induction statements t.place ts with
  | case1 => rfl
  | case2 x ts hbreak ih => rw [List.cons_append, statements_break finish hbreak, ih]
  | case3 x ts hbreak read ih =>
    rw [List.cons_append, statements_start finish (Bool.eq_false_iff.2 hbreak), readStatement_append finish us h, ih,
      List.cons_append]

theorem document_append_opening (ts : List (Token Kind)) :
    document ⟨ts ++ t :: us, finish⟩ =
      ((document ⟨ts, t.place⟩).1, (document ⟨ts, t.place⟩).2 ++ statements finish (t :: us)) := by
  have hstatements := statements_append_opening finish us h
  unfold document
  dsimp only
  rw [skipBreaks_append us h]
  cases skipBreaks ts with
  | nil =>
    obtain ⟨kind, place⟩ := t
    cases h
    rw [List.nil_append]
    simp only [statements]
    rfl
  | cons x ts =>
    obtain ⟨kind, place⟩ := x
    cases kind with
    | keyword k =>
      cases k with
      | direction => exact congrArg (Prod.mk _) (hstatements (⟨_, place⟩ :: ts))
      | _ =>
        dsimp only [List.cons_append]
        rw [readDirection_append us h, hstatements]
    | _ => exact congrArg (Prod.mk _) (hstatements (⟨_, place⟩ :: ts))

end

/-! ### What is read -/

/-- The tokens that are read: those in front of the first subgraph for which there is no room. -/
def reached (stack : Stack) (cut : Tokens Kind) : List (Token Kind) :=
  Depth.front (fun t : Token Kind => t.kind.turn) stack.subgraphs 0 cut.tokens

/-- The first subgraph for which there is no room, if there is one. -/
def excess? (stack : Stack) (cut : Tokens Kind) : Option Opening :=
  match Depth.rest (fun t : Token Kind => t.kind.turn) stack.subgraphs 0 cut.tokens with
  | [] => none
  | t :: ts => some (openingAt cut.finish t.place ts)

/-- The greatest number of subgraphs that are open at once. -/
def depth (ts : List (Token Kind)) : Nat := Depth.deepest (fun t : Token Kind => t.kind.turn) 0 ts

/-- There is such a subgraph if and only if more subgraphs are open at once than there is room for. -/
theorem excess?_eq_none {stack : Stack} {cut : Tokens Kind} :
    excess? stack cut = none ↔ depth cut.tokens ≤ stack.subgraphs := by
  unfold depth
  rw [← Depth.rest_eq_nil, excess?]
  split <;> simp [*]

/-- The statements that are read are those of the tokens that are read, and reading stops at the first subgraph for
which there is no room. -/
theorem front_document (stack : Stack) (cut : Tokens Kind) :
    (∃ finish, front stack (document cut).2 = (document ⟨reached stack cut, finish⟩).2) ∧
      stop? stack (document cut).2 = excess? stack cut := by
  have hall : reached stack cut ++ _ = cut.tokens := Depth.front_append_rest
  unfold excess?
  cases hrest : Depth.rest (fun t : Token Kind => t.kind.turn) stack.subgraphs 0 cut.tokens with
  | nil =>
    rw [hrest, List.append_nil] at hall
    have hroom : Depth.deepest Statement.turn 0 (document cut).2 ≤ stack.subgraphs := by
      rw [deepest_document]
      exact Depth.rest_eq_nil.1 hrest
    refine ⟨⟨cut.finish, ?_⟩, ?_⟩
    · rw [front, Depth.front_of_deepest hroom, hall]
    · rw [stop?, Depth.rest_eq_nil.2 hroom]
      rfl
  | cons t us =>
    rw [hrest] at hall
    obtain ⟨ts, finish⟩ := cut
    dsimp only at hall
    have hturn := Depth.turn_of_rest hrest
    have hkind : t.kind = .opening := opening_of_turn hturn
    have hfits :
        Depth.deepest Statement.turn 0 (document ⟨reached stack ⟨ts, finish⟩, t.place⟩).2 ≤ stack.subgraphs := by
      rw [deepest_document]
      exact Depth.deepest_front
    have hfull : stack.subgraphs ≤
        Depth.depthBehind Statement.turn 0 (document ⟨reached stack ⟨ts, finish⟩, t.place⟩).2 := by
      rw [depthBehind_document]
      exact Depth.le_depthBehind_front (by rw [hrest]; exact List.cons_ne_nil t us)
    -- what stands in front has used up the room, so this opening is the first that is too many
    have hsplit := document_append_opening finish us hkind (reached stack ⟨ts, finish⟩)
    have hhead : statements finish (t :: us) =
        (readStatement finish t us).1 :: statements finish (readStatement finish t us).2 :=
      statements_start finish (by rw [hkind]; rfl) us
    rw [hall, hhead] at hsplit
    have hread : (readStatement finish t us).1.opening? = some (openingAt finish t.place us) := by
      rw [readStatement, hkind]
      rfl
    have hturn : (readStatement finish t us).1.turn = .down := by
      rw [readStatement, hkind]
      rfl
    obtain ⟨hfront, hstop⟩ :=
      Depth.front_append_of_full hfits hfull hturn (statements finish (readStatement finish t us).2)
    rw [front, stop?, hsplit, hfront, hstop]
    exact ⟨⟨t.place, rfl⟩, hread⟩

/-! ### Subgraphs inside each other -/

/-- A text of subgraphs that stand inside each other; none of them is closed. -/
def nest (n : Nat) : Text := Text.unlines (List.replicate (n + 1) "subgraph".toList)

theorem kinds_nest (n : Nat) : kinds rule (nest n) = .opening :: (List.replicate n [.newline, .opening]).flatten := by
  have hlines : ∀ x ∈ "subgraph".toList :: List.replicate n "subgraph".toList, '\n' ∉ x := by
    rw [← List.replicate_succ]
    intro x hx
    rw [List.eq_of_mem_replicate hx]
    decide
  have hline : kinds rule "subgraph".toList = [.opening] := by decide +kernel
  rw [nest, List.replicate_succ, rule_lineLocal.kinds_unlines hlines, hline, List.flatMap_def, List.map_replicate,
    hline]
  rfl

/-- All of these subgraphs are open at once. -/
theorem depth_nest (n : Nat) : depth (tokenize rule (nest n)).tokens = n + 1 := by
  have hmore : ∀ m d, Depth.deepest Kind.turn d (List.replicate m [Kind.newline, .opening]).flatten =
      if m = 0 then 0 else d + m := by
    intro m
    induction m with
    | zero => exact fun _ => rfl
    | succ m ih =>
      intro d
      have hstep : Depth.deepest Kind.turn d (List.replicate (m + 1) [Kind.newline, .opening]).flatten =
          max 0 (max (d + 1)
            (Depth.deepest Kind.turn (d + 1) (List.replicate m [Kind.newline, .opening]).flatten)) := rfl
      rw [hstep, ih]
      split <;> simp <;> omega
  have hkinds : depth (tokenize rule (nest n)).tokens = Depth.deepest Kind.turn 0 (kinds rule (nest n)) := by
    rw [← map_kind_tokenize]
    exact (Depth.deepest_map fun _ => rfl).symm
  have hfirst : ∀ ks, Depth.deepest Kind.turn 0 (.opening :: ks) = max 1 (Depth.deepest Kind.turn 1 ks) := fun _ => rfl
  rw [hkinds, kinds_nest, hfirst, hmore]
  split <;> omega

end DiagramText.Flowchart

import DiagramText.Proofs.Breaks
import DiagramText.Proofs.Nesting
import DiagramText.Sequence.Reader

/-!
# Places do not matter to sequence statements

Reading looks at the kinds of tokens only, and idle breaks are skipped: relaying the tokens moves the places that the
statements carry and changes nothing else (`document_relaid`).  So the outcome of a text is known from the statements of
its tokens without their places (`read_eq_ok_iff`), and texts whose statements agree but for their places have the same
outcome but for the places of errors (`outcome_congr`).  Where the blocks nest no deeper than there is room for, the
stack does not matter at all (`read_eq_ok_iff_statements`).
-/

namespace DiagramText.Sequence

/-- The statement with its places moved. -/
def Statement.move (f : Place → Place) : Statement → Statement
  | opening kind label o => opening kind label (o.move f)
  | faulty e => faulty ⟨f e.place, e.fault⟩
  | skippedLine kind place => skippedLine kind (f place)
  | noArrow name place => noArrow name (f place)
  | st => st

/-- Line breaks and comments are no part of statements. -/
abbrev breaks : Breaks Kind := ⟨Kind.isBreak, .newline, rfl⟩

section

variable {f : Place → Place} {behind : Bool} {ts us : List (Token Kind)}

private theorem heads_skipBreaks (h : Relaid breaks f behind ts us) :
    skipTokens Kind.isBreak ts = [] ∧ skipTokens Kind.isBreak us = [] ∨
      ∃ k p ts' us', skipTokens Kind.isBreak ts = ⟨k, p⟩ :: ts' ∧ skipTokens Kind.isBreak us = ⟨k, f p⟩ :: us' ∧
        k ≠ .newline ∧ Relaid breaks f false ts' us' :=
  h.skip_heads

private theorem skipLine_of_ends (h : breaks.Ends ts) : skipLine ts = ts := h.elim rfl fun _ _ => rfl

private theorem skipLine_cons {k : Kind} (p : Place) (h : k ≠ .newline) (ts : List (Token Kind)) :
    skipLine (⟨k, p⟩ :: ts) = skipLine ts := by
  simp [skipLine, skipTokens, h]

private theorem skipLine_relaid (h : Relaid breaks f false ts us) :
    Relaid breaks f false (skipLine ts) (skipLine us) := by
  induction ts generalizing us with
  | nil =>
    obtain ⟨-, hus⟩ | ⟨_, _, _, _, hts, -⟩ := h.heads
    · rw [skipLine_of_ends hus]
      exact h
    · cases hts
  | cons t ts ih =>
    obtain ⟨hts, hus⟩ | ⟨k, p, ts', us', hts, rfl, hkind, hrest⟩ := h.heads
    · rw [skipLine_of_ends hts, skipLine_of_ends hus]
      exact h
    · cases hts
      rw [skipLine_cons p hkind, skipLine_cons (f p) hkind]
      exact ih hrest

/-- The kinds of the tokens up to the end of the line. -/
private theorem line_relaid (h : Relaid breaks f false ts us) :
    us.takeWhile (·.kind != .newline) = (ts.takeWhile (·.kind != .newline)).map (Token.move f) := by
  have hends : ∀ {ts : List (Token Kind)}, breaks.Ends ts → ts.takeWhile (·.kind != .newline) = [] :=
    fun hts => hts.elim rfl fun _ _ => rfl
  induction ts generalizing us with
  | nil =>
    obtain ⟨-, hus⟩ | ⟨_, _, _, _, hts, -⟩ := h.heads
    · exact hends hus
    · cases hts
  | cons t ts ih =>
    obtain ⟨hts, hus⟩ | ⟨k, p, ts', us', hts, rfl, hkind, hrest⟩ := h.heads
    · rw [hends hts, hends hus]
      rfl
    · cases hts
      rw [List.takeWhile_cons_of_pos (by simpa using hkind), List.takeWhile_cons_of_pos (by simpa using hkind),
        ih hrest]
      rfl

private theorem lineComment_relaid (h : Relaid breaks f false ts us) : lineComment us = lineComment ts := by
  rw [lineComment, lineComment, line_relaid h, List.findSome?_map]
  rfl

private theorem readText_relaid (text : Text) (h : Relaid breaks f false ts us) :
    (readText text us).1 = (readText text ts).1 ∧ Relaid breaks f false (readText text ts).2 (readText text us).2 := by
  refine ⟨?_, skipLine_relaid h⟩
  simp only [readText, lineComment_relaid h]

private theorem readColonText_relaid (h : Relaid breaks f false ts us) :
    (readColonText us).1 = (readColonText ts).1 ∧
      Relaid breaks f false (readColonText ts).2 (readColonText us).2 := by
  have hends : ∀ {ts}, breaks.Ends ts → readColonText ts = ([], ts) := fun hts => hts.elim rfl fun _ _ => rfl
  obtain ⟨hts, hus⟩ | ⟨k, p, ts', us', rfl, rfl, -, hrest⟩ := h.heads
  · rw [hends hts, hends hus]
    exact ⟨rfl, h⟩
  · cases k with
    | colon text => exact readText_relaid text hrest
    | _ => exact ⟨rfl, h⟩

private theorem readDisplay_relaid (h : Relaid breaks f false ts us) :
    (readDisplay us).1 = (readDisplay ts).1 ∧ Relaid breaks f false (readDisplay ts).2 (readDisplay us).2 := by
  have hends : ∀ {ts}, breaks.Ends ts → readDisplay ts = (none, ts) := fun hts => hts.elim rfl fun _ _ => rfl
  obtain ⟨hts, hus⟩ | ⟨k, p, ts', us', rfl, rfl, -, hrest⟩ := h.heads
  · rw [hends hts, hends hus]
    exact ⟨rfl, h⟩
  · cases k with
    | display text =>
      obtain ⟨htext, hline⟩ := readText_relaid text hrest
      -- a string that ends the line is the name
      have hstring : ∀ {value q p ts}, breaks.Ends ts → readDisplay (⟨.display text, p⟩ :: ⟨.string value, q⟩ :: ts) =
          (if value = [] then none else some value, ts) := fun hts => hts.elim rfl fun _ _ => rfl
      have hfree : ∀ {p ts}, breaks.Ends ts → readDisplay (⟨.display text, p⟩ :: ts) =
          (if (readText text ts).1 = [] then none else some (readText text ts).1, (readText text ts).2) :=
        fun hts => hts.elim rfl fun _ _ => rfl
      obtain ⟨hts, hus⟩ | ⟨k, q, ts'', us'', rfl, rfl, -, hrest'⟩ := hrest.heads
      · rw [hfree hts, hfree hus, htext]
        exact ⟨rfl, hline⟩
      · cases k with
        | string value =>
          obtain ⟨hts, hus⟩ | ⟨k, r, ts₃, us₃, rfl, rfl, hkind, -⟩ := hrest'.heads
          · rw [hstring hts, hstring hus]
            exact ⟨rfl, hrest'⟩
          · cases k with
            | newline => exact absurd rfl hkind
            | _ =>
              simp only [readDisplay, htext, true_and]
              exact hline
        | _ =>
          simp only [readDisplay, htext, true_and]
          exact hline
    | _ => exact ⟨rfl, h⟩

private theorem skipOf_relaid (h : Relaid breaks f false ts us) :
    Relaid breaks f false (readPosition.skipOf ts) (readPosition.skipOf us) := by
  have hother : ∀ {ts : List (Token Kind)}, (∀ p us, ts ≠ ⟨.word ['o', 'f'], p⟩ :: us) →
      readPosition.skipOf ts = ts := by
    intro ts hts
    rw [readPosition.skipOf]
    exact hts
  have hends : ∀ {ts}, breaks.Ends ts → readPosition.skipOf ts = ts := fun hts => hts.elim rfl fun _ _ => rfl
  obtain ⟨hts, hus⟩ | ⟨k, p, ts', us', rfl, rfl, -, hrest⟩ := h.heads
  · rw [hends hts, hends hus]
    exact h
  · by_cases hof : k = .word ['o', 'f']
    · subst hof
      exact hrest
    · rw [hother (by simp [hof]), hother (by simp [hof])]
      exact h

private theorem readPosition_relaid (h : Relaid breaks f false ts us) :
    (readPosition us).1 = (readPosition ts).1 ∧ Relaid breaks f false (readPosition ts).2 (readPosition us).2 := by
  have hends : ∀ {ts}, breaks.Ends ts → readPosition ts = (.across, ts) := fun hts => hts.elim rfl fun _ _ => rfl
  obtain ⟨hts, hus⟩ | ⟨k, p, ts', us', rfl, rfl, -, hrest⟩ := h.heads
  · rw [hends hts, hends hus]
    exact ⟨rfl, h⟩
  · cases k with
    | leftOf => exact ⟨rfl, skipOf_relaid hrest⟩
    | rightOf => exact ⟨rfl, skipOf_relaid hrest⟩
    | across => exact ⟨rfl, hrest⟩
    | _ => exact ⟨rfl, h⟩

theorem readKeys_of_none (h : ∀ t ∈ ts.head?, t.kind.key? = none) : readKeys ts = ([], ts) := by
  fun_cases readKeys ts with
  | case1 t p us key hkey => simp [h t rfl] at hkey
  | case2 => rfl
  | case3 t us hcomma key hkey => simp [h t rfl] at hkey
  | case4 => rfl
  | case5 => rfl

theorem readKeys_comma {t : Token Kind} {key : Text} {p : Place} (hkey : t.kind.key? = some key)
    (ts : List (Token Kind)) :
    readKeys (t :: ⟨.comma, p⟩ :: ts) = (key :: (readKeys ts).1, (readKeys ts).2) := by
  rw [readKeys, hkey]

/-- A participant that no comma follows is the last one. -/
theorem readKeys_last {t : Token Kind} {key : Text} (hkey : t.kind.key? = some key)
    (h : ∀ p us, ts ≠ ⟨.comma, p⟩ :: us) : readKeys (t :: ts) = ([key], ts) := by
  rw [readKeys]
  · rw [hkey]
  · exact h

private theorem readKeys_relaid (h : Relaid breaks f false ts us) :
    (readKeys us).1 = (readKeys ts).1 ∧ Relaid breaks f false (readKeys ts).2 (readKeys us).2 := by
  have hnone : ∀ {ts us}, Relaid breaks f false ts us → (∀ t ∈ ts.head?, t.kind.key? = none) →
      (readKeys us).1 = [] ∧ Relaid breaks f false ts (readKeys us).2 := by
    intro ts us h hts
    have hus : ∀ t ∈ us.head?, t.kind.key? = none := by
      obtain ⟨-, hus⟩ | ⟨k, p, ts', us', rfl, rfl, -, -⟩ := h.heads
      · exact hus.elim (by simp) (by simp [Kind.key?])
      · simpa using hts
    rw [readKeys_of_none hus]
    exact ⟨rfl, h⟩
  fun_induction readKeys ts generalizing us with
  | case1 t p ts key hkey ih =>
    obtain ⟨hts, -⟩ | ⟨k, q, _, us', hts, rfl, -, hrest⟩ := h.heads
    · simp [hts t rfl, Kind.key?] at hkey
    · cases hts
      obtain ⟨hts, -⟩ | ⟨_, _, _, us'', hts, rfl, -, hrest'⟩ := hrest.heads
      · cases hts _ rfl
      · cases hts
        obtain ⟨hkeys, hbehind⟩ := ih hrest'
        rw [readKeys_comma (t := ⟨k, f q⟩) hkey]
        exact ⟨congrArg (key :: ·) hkeys, hbehind⟩
  | case2 t p ts hkey => exact hnone h (by simpa using hkey)
  | case3 t ts hcomma key hkey =>
    obtain ⟨hts, -⟩ | ⟨k, q, _, us', hts, rfl, -, hrest⟩ := h.heads
    · simp [hts t rfl, Kind.key?] at hkey
    · cases hts
      have hus : ∀ p vs, us' ≠ ⟨.comma, p⟩ :: vs := by
        rintro p vs rfl
        obtain ⟨-, hus⟩ | ⟨k, q, ts', us', rfl, hus, -, -⟩ := hrest.heads
        · cases hus _ rfl
        · cases hus
          exact hcomma _ _ rfl
      rw [readKeys_last (t := ⟨k, f q⟩) hkey hus]
      exact ⟨rfl, hrest⟩
  | case4 t ts hcomma hkey => exact hnone h (by simpa using hkey)
  | case5 => exact hnone h (by simp)

private theorem readMark_relaid (keyword : Text) (place : Place) {mark : Text → Statement}
    (hmark : ∀ key, (mark key).move f = mark key) (h : Relaid breaks f false ts us) :
    (readMark keyword (f place) mark us).1 = (readMark keyword place mark ts).1.move f ∧
      Relaid breaks f false (readMark keyword place mark ts).2 (readMark keyword (f place) mark us).2 := by
  have hends : ∀ {place ts}, breaks.Ends ts →
      readMark keyword place mark ts = (.faulty ⟨place, .activationParticipant keyword⟩, ts) :=
    fun hts => hts.elim rfl fun _ _ => rfl
  obtain ⟨hts, hus⟩ | ⟨k, p, ts', us', rfl, rfl, -, hrest⟩ := h.heads
  · rw [hends hts, hends hus]
    exact ⟨rfl, h⟩
  · simp only [readMark]
    cases k.key? with
    | none => exact ⟨rfl, h⟩
    | some key => exact ⟨(hmark key).symm, hrest⟩

private theorem readDeclaration_relaid (finish : Place) (kind : ParticipantKind) (h : Relaid breaks f false ts us) :
    (readDeclaration (f finish) kind us).1 = (readDeclaration finish kind ts).1.move f ∧
      Relaid breaks f false (readDeclaration finish kind ts).2 (readDeclaration (f finish) kind us).2 := by
  have hends : ∀ {finish ts}, breaks.Ends ts →
      readDeclaration finish kind ts = (.faulty ⟨startOf finish ts, .participantName kind.word⟩, ts) :=
    fun hts => hts.elim rfl fun _ _ => rfl
  obtain ⟨hts, hus⟩ | ⟨k, p, ts', us', rfl, rfl, -, hrest⟩ := h.heads
  · rw [hends hts, hends hus, h.startOf]
    exact ⟨rfl, h⟩
  · simp only [readDeclaration]
    cases k.key? with
    | none => exact ⟨rfl, h⟩
    | some key =>
      obtain ⟨hdisplay, hbehind⟩ := readDisplay_relaid hrest
      dsimp only
      rw [hdisplay]
      exact ⟨rfl, hbehind⟩

private theorem readMessage_relaid (source : Text) (place : Place) (h : Relaid breaks f false ts us) :
    (readMessage source (f place) us).1 = (readMessage source place ts).1.move f ∧
      Relaid breaks f false (readMessage source place ts).2 (readMessage source (f place) us).2 := by
  have hends : ∀ {place ts}, breaks.Ends ts → readMessage source place ts = (.noArrow source place, skipLine ts) :=
    fun hts => hts.elim rfl fun _ _ => rfl
  obtain ⟨hts, hus⟩ | ⟨k, p, ts', us', rfl, rfl, -, hrest⟩ := h.heads
  · rw [hends hts, hends hus]
    exact ⟨rfl, skipLine_relaid h⟩
  · cases k with
    | arrow type =>
      have hloose : ∀ {place p ts}, breaks.Ends ts →
          readMessage source place (⟨.arrow type, p⟩ :: ts) = (.faulty ⟨p, .messageTarget⟩, ts) :=
        fun hts => hts.elim rfl fun _ _ => rfl
      obtain ⟨hts, hus⟩ | ⟨k, q, ts'', us'', rfl, rfl, -, hrest'⟩ := hrest.heads
      · rw [hloose hts, hloose hus]
        exact ⟨rfl, hrest⟩
      · simp only [readMessage]
        cases k.key? with
        | none => exact ⟨rfl, hrest⟩
        | some target =>
          obtain ⟨htext, hbehind⟩ := readColonText_relaid hrest'
          dsimp only
          rw [htext]
          exact ⟨rfl, hbehind⟩
    | _ => exact ⟨rfl, skipLine_relaid h⟩

private theorem readNote_relaid (place : Place) (h : Relaid breaks f false ts us) :
    (readNote (f place) us).1 = (readNote place ts).1.move f ∧
      Relaid breaks f false (readNote place ts).2 (readNote (f place) us).2 := by
  obtain ⟨hposition, hrest⟩ := readPosition_relaid h
  obtain ⟨hkeys, hrest⟩ := readKeys_relaid hrest
  obtain ⟨htext, hbehind⟩ := readColonText_relaid hrest
  simp only [readNote, hposition, hkeys, htext]
  split
  · exact ⟨rfl, hrest⟩
  · exact ⟨rfl, hbehind⟩

private theorem readStatement_relaid (finish : Place) (inside : List BlockKind) (t : Token Kind)
    (h : Relaid breaks f false ts us) :
    (readStatement (f finish) inside (t.move f) us).1 = (readStatement finish inside t ts).1.move f ∧
      Relaid breaks f false (readStatement finish inside t ts).2
        (readStatement (f finish) inside (t.move f) us).2 := by
  obtain ⟨k, p⟩ := t
  have hskip : ∀ k : Kind, (readStatement.skip (⟨k, f p⟩ : Token Kind) us).1 =
      (readStatement.skip (⟨k, p⟩ : Token Kind) ts).1.move f ∧
        Relaid breaks f false (readStatement.skip (⟨k, p⟩ : Token Kind) ts).2
          (readStatement.skip (⟨k, f p⟩ : Token Kind) us).2 :=
    fun _ => ⟨rfl, skipLine_relaid h⟩
  cases k with
  | declare kind => exact readDeclaration_relaid finish kind h
  | note spelling => exact readNote_relaid p h
  | opening kind text =>
    obtain ⟨htext, hline⟩ := readText_relaid text h
    simp only [readStatement, Token.move, htext, h.startOf, hline.startOf]
    exact ⟨rfl, hline⟩
  | activate => exact readMark_relaid _ p (fun _ => rfl) h
  | deactivate => exact readMark_relaid _ p (fun _ => rfl) h
  | word name => exact readMessage_relaid name p h
  | string value => exact readMessage_relaid value p h
  | closing =>
    simp only [readStatement, Token.move]
    split
    · exact hskip _
    · exact ⟨rfl, h⟩
  | branch text =>
    obtain ⟨htext, hline⟩ := readText_relaid text h
    simp only [readStatement, Token.move]
    split
    · rw [htext]
      exact ⟨rfl, hline⟩
    · exact hskip _
  | _ => exact hskip _

private theorem inside_move (st : Statement) (inside : List BlockKind) :
    (st.move f).inside inside = st.inside inside := by
  cases st <;> rfl

theorem statements_skipBreaks (finish : Place) (inside : List BlockKind) (ts : List (Token Kind)) :
    statements finish inside (skipTokens Kind.isBreak ts) = statements finish inside ts :=
  read_skipTokens (fun t ts h => by rw [statements, if_pos h]) ts

theorem statements_relaid (finish : Place) (inside : List BlockKind) (h : Relaid breaks f behind ts us) :
    statements (f finish) inside us = (statements finish inside ts).map (Statement.move f) := by
  induction hn : ts.length using Nat.strongRecOn generalizing ts us behind inside with
  | ind n ih =>
    subst hn
    rw [← statements_skipBreaks finish inside ts, ← statements_skipBreaks (f finish) inside us]
    obtain ⟨hts, hus⟩ | ⟨k, p, ts', us', hts, hus, hkind, hrest⟩ := heads_skipBreaks h
    · rw [hts, hus, statements, statements]
      rfl
    · have hlt : ts'.length < ts.length := length_of_skipTokens hts
      rw [hts, hus, statements, statements]
      cases hbreak : k.isBreak with
      | true => exact ih _ hlt inside hrest rfl
      | false =>
        obtain ⟨hstatement, hbehind⟩ := readStatement_relaid finish inside ⟨k, p⟩ hrest
        have hle := (readStatement_suffix finish inside ⟨k, p⟩ ts').length_le
        simp only [Token.move] at hstatement hbehind
        simp only [Bool.false_eq_true, if_false, List.map_cons, hstatement, inside_move,
          ih _ (by omega) _ hbehind rfl]

/-- Relaying the tokens of a text moves the places of its statements, and nothing else. -/
theorem document_relaid (finish : Place) (h : Relaid breaks f behind ts us) :
    document ⟨us, f finish⟩ = (document ⟨ts, finish⟩).map (Statement.move f) := by
  unfold document
  dsimp only
  have hskip : Relaid breaks f false (skipTokens Kind.isBreak ts) (skipTokens Kind.isBreak us) := h.skip
  obtain ⟨hts, hus⟩ | ⟨k, p, ts', us', hts, hus, hkind, hrest⟩ := heads_skipBreaks h
  · rw [hts, hus] at hskip ⊢
    exact statements_relaid finish [] hskip
  · rw [hts, hus] at hskip ⊢
    cases k with
    | header => exact statements_relaid finish [] hrest
    | _ => exact statements_relaid finish [] hskip

end

/-- Moving the tokens of a text moves the places of its statements, and nothing else. -/
theorem document_map_move (f : Place → Place) (ts : List (Token Kind)) (finish : Place) :
    document ⟨ts.map (Token.move f), f finish⟩ = (document ⟨ts, finish⟩).map (Statement.move f) :=
  document_relaid finish (Relaid.map_move breaks f ts false)

/-! ### What a moved statement says -/

theorem Draft.add_move (f : Place → Place) (d : Draft) (st : Statement) : d.add (st.move f) = d.add st := by
  cases st <;> rfl

theorem Draft.ofStatements_map_move (f : Place → Place) (sts : List Statement) :
    Draft.ofStatements (sts.map (Statement.move f)) = Draft.ofStatements sts := by
  unfold Draft.ofStatements
  rw [List.foldl_map]
  congr 2
  funext d st
  exact Draft.add_move f d st

theorem Statement.error?_move (f : Place → Place) (st : Statement) :
    (st.move f).error? = st.error?.map (ParseError.move f) := by
  cases st <;> rfl

theorem Statement.error?_move_eq_none {f : Place → Place} {st : Statement} :
    (st.move f).error? = none ↔ st.error? = none := by
  rw [error?_move, Option.map_eq_none_iff]

theorem Statement.turn_move (f : Place → Place) (st : Statement) : (st.move f).turn = st.turn := by cases st <;> rfl

theorem Statement.opening?_move (f : Place → Place) (st : Statement) :
    (st.move f).opening? = st.opening?.map (Opening.move f) := by
  cases st <;> rfl

theorem Statement.opening?_isSome (st : Statement) (h : st.turn = .down) : st.opening?.isSome := by
  cases st with
  | opening => rfl
  | _ => cases h

/-! ### Turns -/

/-- What the statement at a token does to the number of open blocks, which are of the given kinds. -/
def Kind.turn (inside : List BlockKind) : Kind → Turn
  | opening _ _ => .down
  | closing => if inside = [] then .level else .up
  | _ => .level

private theorem turn_readMark (keyword : Text) (place : Place) {mark : Text → Statement}
    (hmark : ∀ key, (mark key).turn = .level) (ts : List (Token Kind)) :
    (readMark keyword place mark ts).1.turn = .level := by
  unfold readMark
  split
  · rfl
  · split
    · exact hmark _
    · rfl

private theorem turn_readMessage (source : Text) (place : Place) (ts : List (Token Kind)) :
    (readMessage source place ts).1.turn = .level := by
  unfold readMessage
  split
  · split
    · rfl
    · split <;> rfl
  · rfl

/-- Only the words that open a block open one, and only the word `end` closes one. -/
theorem turn_readStatement (finish : Place) (inside : List BlockKind) (t : Token Kind) (ts : List (Token Kind)) :
    (readStatement finish inside t ts).1.turn = t.kind.turn inside := by
  obtain ⟨k, place⟩ := t
  cases k with
  | declare kind =>
    show (readDeclaration finish kind ts).1.turn = .level
    unfold readDeclaration
    split
    · rfl
    · split <;> rfl
  | note text =>
    show (readNote place ts).1.turn = .level
    unfold readNote
    dsimp only
    split <;> rfl
  | activate => exact turn_readMark _ _ (fun _ => rfl) ts
  | deactivate => exact turn_readMark _ _ (fun _ => rfl) ts
  | word name => exact turn_readMessage name place ts
  | string value => exact turn_readMessage value place ts
  | closing =>
    simp only [readStatement, Kind.turn]
    split <;> rfl
  | branch behind =>
    simp only [readStatement]
    split <;> rfl
  | _ => rfl

/-! ### Outcomes -/

theorem front_map_move (stack : Stack) (f : Place → Place) (sts : List Statement) :
    front stack (sts.map (Statement.move f)) = (front stack sts).map (Statement.move f) :=
  Depth.front_map (Statement.turn_move f)

theorem errorsIn_map_move (stack : Stack) (f : Place → Place) (sts : List Statement) :
    errorsIn stack (sts.map (Statement.move f)) = (errorsIn stack sts).map (ParseError.move f) := by
  have hstop : stop? stack (sts.map (Statement.move f)) = (stop? stack sts).map (Opening.move f) := by
    rw [stop?, stop?, Depth.rest_map (Statement.turn_move f), List.head?_map, Option.bind_map, Option.map_bind]
    exact congrArg (Option.bind _) (funext fun st => st.opening?_move f)
  have herror : stack.error ∘ Opening.move f = ParseError.move f ∘ stack.error := funext (stack.error_move f)
  rw [errorsIn, errorsIn, front_map_move, hstop, List.map_append, List.filterMap_map, List.map_filterMap,
    Option.toList_map, List.map_map, List.map_map, herror]
  congr 2
  funext st
  exact st.error?_move f

/-- There are no errors if no statement is one and there is room for all blocks that are open at once. -/
theorem errorsIn_eq_nil {stack : Stack} {sts : List Statement} : errorsIn stack sts = [] ↔
    Depth.deepest Statement.turn 0 sts ≤ stack.blocks ∧ ∀ st ∈ sts, st.error? = none := by
  have hstop : stop? stack sts = none ↔ Depth.deepest Statement.turn 0 sts ≤ stack.blocks :=
    Depth.stop_eq_none fun st => st.opening?_isSome
  rw [errorsIn, List.append_eq_nil_iff, List.map_eq_nil_iff, Option.toList_eq_nil_iff, hstop, and_comm]
  refine and_congr_right fun hroom => ?_
  rw [front, Depth.front_of_deepest hroom, List.filterMap_eq_nil_iff]

/-- A text can be read if no statement is an error and its blocks do not nest too deep, and its diagram is that of its
statements. -/
theorem read_eq_ok_iff_statements {stack : Stack} {s : Text} {d : Diagram} : (read stack s).outcome = .ok d ↔
    Depth.deepest Statement.turn 0 (document (tokenize rule s)) ≤ stack.blocks ∧
      (∀ st ∈ document (tokenize rule s), st.error? = none) ∧
      (Draft.ofStatements (document (tokenize rule s))).toDiagram = d := by
  rw [← and_assoc, ← errorsIn_eq_nil]
  refine Reading.ofFaults_eq_ok_iff.trans (and_congr_right fun hnil => ?_)
  rw [front, Depth.front_of_deepest (errorsIn_eq_nil.1 hnil).1]

/-- Texts whose statements agree but for their places end in the same diagram, or with errors that agree but for their
places. -/
theorem outcome_congr (stack : Stack) {s s' : Text} {f : Place → Place}
    (h : (document (tokenize rule s)).map (Statement.move f) = (document (tokenize rule s')).map (Statement.move f)) :
    (read stack s).outcome.mapError (List.map (ParseError.move f)) =
      (read stack s').outcome.mapError (List.map (ParseError.move f)) := by
  apply Reading.outcome_congr
  · rw [← Draft.ofStatements_map_move f, ← front_map_move, h, front_map_move, Draft.ofStatements_map_move]
  · have herrors := congrArg (errorsIn stack) h
    rwa [errorsIn_map_move, errorsIn_map_move] at herrors

/-- The statements of a text, without their places. -/
def said (s : Text) : List Statement := document ⟨unplaced (kinds rule s), {}⟩

theorem said_eq (s : Text) : said s = (document (tokenize rule s)).map (Statement.move fun _ => {}) := by
  rw [said, ← map_kind_tokenize, ← map_move_eq_unplaced]
  exact document_map_move (fun _ => {}) (tokenize rule s).tokens (tokenize rule s).finish

/-- A text can be read if no statement is an error and its blocks do not nest too deep, and its diagram is that of its
statements, wherever they stand. -/
theorem read_eq_ok_iff {stack : Stack} {s : Text} {d : Diagram} : (read stack s).outcome = .ok d ↔
    Depth.deepest Statement.turn 0 (said s) ≤ stack.blocks ∧ (∀ st ∈ said s, st.error? = none) ∧
      (Draft.ofStatements (said s)).toDiagram = d := by
  rw [read_eq_ok_iff_statements, said_eq, Depth.deepest_map (Statement.turn_move _), List.forall_mem_map,
    Draft.ofStatements_map_move]
  simp only [Statement.error?_move_eq_none]

theorem read_eq_ok {stack : Stack} {s : Text} {sts : List Statement} (h : said s = sts)
    (hroom : Depth.deepest Statement.turn 0 sts ≤ stack.blocks) (herr : ∀ st ∈ sts, st.error? = none) :
    (read stack s).outcome = .ok (Draft.ofStatements sts).toDiagram := by
  subst h
  exact read_eq_ok_iff.2 ⟨hroom, herr, rfl⟩

/-- Where there is no room for a block, the only error is that of the block. -/
theorem read_eq_error {stack : Stack} {s : Text} {sts : List Statement} (h : said s = sts)
    (hroom : ¬ Depth.deepest Statement.turn 0 sts ≤ stack.blocks) (herr : ∀ st ∈ sts, st.error? = none) :
    ∃ o, (read stack s).outcome = .error [stack.error o] := by
  rw [said_eq] at h
  subst h
  rw [Depth.deepest_map (Statement.turn_move _)] at hroom
  rw [List.forall_mem_map] at herr
  have hnone : ∀ st ∈ front stack (document (tokenize rule s)), st.error? = none := fun st hst =>
    Statement.error?_move_eq_none.1 (herr st (Depth.front_prefix.subset hst))
  obtain ⟨o, ho⟩ : ∃ o, stop? stack (document (tokenize rule s)) = some o :=
    Option.ne_none_iff_exists'.1 fun hnone => hroom ((Depth.stop_eq_none fun st => st.opening?_isSome).1 hnone)
  have herrors : errorsIn stack (document (tokenize rule s)) = [stack.error o] := by
    rw [errorsIn, List.filterMap_eq_nil_iff.2 hnone, ho]
    rfl
  refine ⟨o, Reading.ofFaults_eq_error_iff.2 ⟨?_, herrors⟩⟩
  rw [herrors]
  exact List.cons_ne_nil _ _

end DiagramText.Sequence

import DiagramText.Proofs.Returns
import DiagramText.Proofs.Sequence.Trailing

/-!
# Returns in sequence text

A return at the end of a line goes into the comment there, and into what the tokens of the line carry (`returnable`).
Of all that a token carries readers take the free text, which has no outer blanks and holds no comment.  They find the
same if each token carries no more than that (`document_settle`), and then a return does not show (`settle_view`).
-/

namespace DiagramText.Sequence

/-! ### The rule in front of a return -/

namespace Kind

/-- The token with a return at the end of its line. -/
def withReturn : Kind → Kind
  | comment text => comment (text ++ ['\r'])
  | k => k.carry (k.behind ++ ['\r'])

theorem Plain.carry_return {k : Kind} {rest : Text} (h : k.Plain rest) (hrest : '\n' ∉ rest) :
    k.carry (rest ++ ['\r']) = k.withReturn := by
  have hline := Text.firstLine_of_not_mem hrest
  have hbehind := h.carry
  rw [hline] at hbehind
  rw [← hbehind, carry_carry]
  cases k with
  | comment text => exact absurd h id
  | _ => rfl

end Kind

theorem returnable : Returnable rule Kind.string? Kind.withReturn where
  found c r hc hr hclosed := by
    have hline : '\n' ∉ r ++ ['\r'] := by simp [hr]
    by_cases hcomment : c = '%' ∧ r.head? = some '%'
    · obtain ⟨rfl, hhead⟩ := hcomment
      have hrule : ∀ {r : Text}, r.head? = some '%' →
          rule '%' r = ⟨some (.comment ('%' :: Text.firstLine r)), (Text.firstLine r).length⟩ := by
        intro r h
        simp [rule, h]
      have hhead' : (r ++ ['\r']).head? = some '%' := by
        rw [List.head?_append, hhead]
        rfl
      rw [hrule hhead, hrule hhead', Text.firstLine_of_not_mem hr, Text.firstLine_of_not_mem hline]
      exact ⟨rfl, Or.inr ⟨rfl, List.length_append⟩⟩
    · have hstring : c = '"' → '"' ∈ r ∨ '\n' ∈ r := by
        rintro rfl
        exact Or.inl (quote_mem_of_closed (hclosed _ rfl _ rfl))
      have hrest : '\n' ∉ r.drop (rule c r).more := fun h => hr (List.mem_of_mem_drop h)
      have hbehind : Text.firstLine ((r ++ ['\r']).drop (rule c r).more) = r.drop (rule c r).more ++ ['\r'] := by
        rw [List.drop_append_of_le_length (rule_lineLocal.more_le c r)]
        exact Text.firstLine_of_not_mem (by simp [hrest])
      rw [rule_append_gap (by decide) [] (fun hc hhead => absurd ⟨hc, hhead⟩ hcomment) hstring, hbehind]
      refine ⟨?_, Or.inl rfl⟩
      have hcase := ruleCase c r
      generalize rule c r = found at hcase hrest
      cases hcase with
      | plain hr hw hplain =>
        rw [hr, List.drop_left] at hrest ⊢
        exact congrArg some (hplain.carry_return hrest)
      | comment hc hr => exact absurd ⟨hc, hr⟩ hcomment
      | _ => rfl

/-! ### Settled tokens -/

/-- The token in front of `ts`: it carries its free text only, and a comment says nothing. -/
def Kind.settled (ts : List (Token Kind)) : Kind → Kind
  | comment _ => comment []
  | k => k.carry (readText k.behind ts).1

namespace Kind

variable (ts : List (Token Kind)) (k : Kind)

@[simp] theorem name_settled : (k.settled ts).name = k.name := by
  cases k with
  | opening block _ => cases block <;> rfl
  | _ => rfl

@[simp] theorem key?_settled : (k.settled ts).key? = k.key? := by cases k <;> rfl

@[simp] theorem isBreak_settled : (k.settled ts).isBreak = k.isBreak := by cases k <;> rfl

theorem settled_eq_newline : k.settled ts = newline ↔ k = newline := by cases k <;> simp [settled, carry]

end Kind

/-- Every token carries the free text behind it only, and comments say nothing. -/
def settle : List (Token Kind) → List (Token Kind)
  | [] => []
  | t :: ts => ⟨t.kind.settled ts, t.place⟩ :: settle ts

/-! ### The comment of a line -/

private theorem lineComment_cons (t : Token Kind) (ts : List (Token Kind)) : lineComment (t :: ts) =
    if t.kind = .newline then [] else t.kind.comment?.getD (lineComment ts) := by
  rw [lineComment_eq, lineComment_eq, List.map_cons]
  split
  · rename_i h
    rw [List.takeWhile_cons_of_neg (by simp [h])]
    rfl
  · rename_i h
    rw [List.takeWhile_cons_of_pos (by simp [h]), List.findSome?_cons]
    cases t.kind.comment? <;> rfl

private theorem lineComment_append_break (ts : List (Token Kind)) (p : Place) (us : List (Token Kind)) :
    lineComment (ts ++ ⟨.newline, p⟩ :: us) = lineComment ts := by
  induction ts with
  | nil => rfl
  | cons t ts ih => rw [List.cons_append, lineComment_cons, lineComment_cons, ih]

private theorem lineComment_settle (ts : List (Token Kind)) : lineComment (settle ts) = [] := by
  induction ts with
  | nil => rfl
  | cons t ts ih =>
    obtain ⟨k, p⟩ := t
    rw [settle, lineComment_cons, ih]
    cases k <;> rfl

private theorem lineComment_move (f : Place → Place) (ts : List (Token Kind)) :
    lineComment (ts.map (Token.move f)) = lineComment ts := by
  rw [lineComment_eq, lineComment_eq, List.map_map]
  rfl

/-- A return goes into the comment of the line, if there is one. -/
private theorem lineComment_return (ts : List (Token Kind)) :
    lineComment ts = [] ∧ lineComment (ts.map (Token.recast Kind.withReturn)) = [] ∨
      lineComment (ts.map (Token.recast Kind.withReturn)) = lineComment ts ++ ['\r'] := by
  induction ts with
  | nil => exact Or.inl ⟨rfl, rfl⟩
  | cons t ts ih =>
    obtain ⟨k, p⟩ := t
    rw [List.map_cons, lineComment_cons, lineComment_cons]
    cases k with
    | comment text => exact Or.inr rfl
    | newline => exact Or.inl ⟨rfl, rfl⟩
    | _ => exact ih

private theorem readText_return (behind : Text) (ts : List (Token Kind)) :
    (readText (behind ++ ['\r']) (ts.map (Token.recast Kind.withReturn))).1 = (readText behind ts).1 := by
  unfold readText
  dsimp only
  rw [List.length_append, List.length_singleton]
  rcases lineComment_return ts with ⟨h, h'⟩ | h
  · have hlength : behind.length + 1 = (behind ++ ['\r']).length := by simp
    rw [h, h', List.length_nil, Nat.sub_zero, Nat.sub_zero, List.take_length, hlength, List.take_length]
    exact Text.strip_append_blank (by decide) behind
  · rw [h, List.length_append, List.length_singleton, Nat.add_sub_add_right,
      List.take_append_of_le_length (Nat.sub_le _ _)]

private theorem settled_return (ts : List (Token Kind)) (k : Kind) :
    k.withReturn.settled (ts.map (Token.recast Kind.withReturn)) = k.settled ts := by
  cases k with
  | comment text => rfl
  | colon b => exact congrArg Kind.colon (readText_return b ts)
  | opening block b => exact congrArg (Kind.opening block) (readText_return b ts)
  | branch b => exact congrArg Kind.branch (readText_return b ts)
  | display b => exact congrArg Kind.display (readText_return b ts)
  | _ => rfl

/-- The free text behind a token stands on its line and has no outer blanks. -/
theorem settle_view : View .newline Kind.withReturn settle where
  append_break ts p us := by
    induction ts with
    | nil => rfl
    | cons t ts ih =>
      have hkind : ∀ k : Kind, k.settled (ts ++ ⟨.newline, p⟩ :: us) = k.settled ts := by
        intro k
        cases k <;> simp only [Kind.settled, readText, lineComment_append_break]
      rw [List.cons_append, settle, settle, hkind, ih, List.cons_append]
  recast ts := by
    induction ts with
    | nil => rfl
    | cons t ts ih =>
      rw [List.map_cons, settle, settle, ih]
      exact congrArg (Token.mk · t.place :: settle ts) (settled_return ts t.kind)
  move f ts := by
    induction ts with
    | nil => rfl
    | cons t ts ih =>
      have hkind : ∀ k : Kind, k.settled (ts.map (Token.move f)) = k.settled ts := by
        intro k
        cases k <;> simp only [Kind.settled, readText, lineComment_move]
      rw [List.map_cons, settle, settle, List.map_cons, ih]
      exact congrArg (Token.mk · (f t.place) :: _) (hkind t.kind)

/-! ### Readers of settled tokens -/

private theorem skipTokens_settle {p : Kind → Bool} (hp : ∀ ts k, p (Kind.settled ts k) = p k)
    (ts : List (Token Kind)) : skipTokens p (settle ts) = settle (skipTokens p ts) := by
  induction ts with
  | nil => rfl
  | cons t ts ih =>
    by_cases h : p t.kind = true
    · rw [skipTokens_of_pos h, ← ih]
      exact skipTokens_of_pos ((hp ts t.kind).trans h) _
    · rw [skipTokens_of_neg h]
      exact skipTokens_of_neg (mt (hp ts t.kind).symm.trans h) _

private theorem skipLine_settle (ts : List (Token Kind)) : skipLine (settle ts) = settle (skipLine ts) :=
  skipTokens_settle (fun ts k => Bool.eq_iff_iff.2 (by simp [Kind.settled_eq_newline])) ts

/-- The free text of a settled token is what it carries. -/
private theorem readText_settle (behind : Text) (ts : List (Token Kind)) :
    readText (readText behind ts).1 (settle ts) = ((readText behind ts).1, settle (readText behind ts).2) := by
  rw [readText, lineComment_settle, List.length_nil, Nat.sub_zero, List.take_length, skipLine_settle]
  exact congrArg (·, settle (skipLine ts)) (Text.strip_strip _)

private theorem readColonText_settle (ts : List (Token Kind)) :
    readColonText (settle ts) = ((readColonText ts).1, settle (readColonText ts).2) := by
  cases ts with
  | nil => rfl
  | cons t ts =>
    obtain ⟨k, p⟩ := t
    cases k with
    | colon b => exact readText_settle b ts
    | _ => rfl

private theorem ends_settle {ts : List (Token Kind)} : breaks.Ends (settle ts) ↔ breaks.Ends ts := by
  cases ts with
  | nil => exact Iff.rfl
  | cons t ts => simp [Breaks.Ends, settle, Kind.settled_eq_newline]

private theorem exists_string_of_settle {ts vs : List (Token Kind)} {value : Text} {p : Place}
    (h : settle ts = ⟨.string value, p⟩ :: vs) : ∃ us, ts = ⟨.string value, p⟩ :: us ∧ vs = settle us := by
  cases ts with
  | nil => cases h
  | cons t ts =>
    obtain ⟨k, q⟩ := t
    cases k with
    | string v =>
      cases h
      exact ⟨ts, rfl, rfl⟩
    | _ => cases h

private theorem readDisplay_settle (ts : List (Token Kind)) :
    readDisplay (settle ts) = ((readDisplay ts).1, settle (readDisplay ts).2) := by
  cases ts with
  | nil => rfl
  | cons t ts =>
    obtain ⟨k, p⟩ := t
    cases k with
    | display b =>
      show readDisplay (⟨.display (readText b ts).1, p⟩ :: settle ts) = _
      by_cases hstring : ∃ value q us, ts = ⟨.string value, q⟩ :: us ∧ breaks.Ends us
      · -- a string that ends the line is the name
        obtain ⟨value, q, us, rfl, hus⟩ := hstring
        rw [readDisplay_string hus]
        exact readDisplay_string (ends_settle.2 hus)
      · have hfree : ∀ value q us, ts = ⟨.string value, q⟩ :: us → ¬ breaks.Ends us := fun value q us hts hus =>
          hstring ⟨value, q, us, hts, hus⟩
        have hfree' : ∀ value q us, settle ts = ⟨.string value, q⟩ :: us → ¬ breaks.Ends us := by
          intro value q us hus hends
          obtain ⟨vs, hts, rfl⟩ := exists_string_of_settle hus
          exact hfree value q vs hts (ends_settle.1 hends)
        rw [readDisplay_free hfree, readDisplay_free hfree', readText_settle]
    | _ => rfl

private theorem skipOf_settle (ts : List (Token Kind)) :
    readPosition.skipOf (settle ts) = settle (readPosition.skipOf ts) := by
  have hother : ∀ {ts : List (Token Kind)}, (∀ p us, ts ≠ ⟨.word ['o', 'f'], p⟩ :: us) →
      readPosition.skipOf ts = ts := by
    intro ts hts
    rw [readPosition.skipOf]
    exact hts
  cases ts with
  | nil => rfl
  | cons t ts =>
    obtain ⟨k, p⟩ := t
    cases k with
    | word name =>
      by_cases hof : name = ['o', 'f']
      · subst hof
        rfl
      · have hsame : readPosition.skipOf (⟨.word name, p⟩ :: ts) = ⟨.word name, p⟩ :: ts := hother (by simp [hof])
        rw [hsame]
        exact hother (by simp [settle, Kind.settled, Kind.carry, hof])
    | _ => rfl

private theorem readPosition_settle (ts : List (Token Kind)) :
    readPosition (settle ts) = ((readPosition ts).1, settle (readPosition ts).2) := by
  cases ts with
  | nil => rfl
  | cons t ts =>
    obtain ⟨k, p⟩ := t
    cases k with
    | leftOf => exact congrArg (Prod.mk _) (skipOf_settle ts)
    | rightOf => exact congrArg (Prod.mk _) (skipOf_settle ts)
    | _ => rfl

private theorem readKeys_settle (ts : List (Token Kind)) :
    readKeys (settle ts) = ((readKeys ts).1, settle (readKeys ts).2) := by
  have hnone : ∀ {t : Token Kind} {us : List (Token Kind)}, t.kind.key? = none →
      readKeys (settle (t :: us)) = ([], settle (t :: us)) := fun hkey =>
    readKeys_of_none (by simpa [settle] using hkey)
  fun_induction readKeys ts with
  | case1 t p us key hkey ih =>
    have hread := readKeys_comma (t := ⟨t.kind.settled (⟨.comma, p⟩ :: us), t.place⟩) (p := p)
      ((t.kind.key?_settled _).trans hkey) (settle us)
    refine hread.trans ?_
    rw [ih]
  | case2 t p us hkey => exact hnone hkey
  | case3 t us hcomma key hkey =>
    refine readKeys_last (t := ⟨t.kind.settled us, t.place⟩) ((t.kind.key?_settled _).trans hkey) ?_
    intro p vs hvs
    cases us with
    | nil => cases hvs
    | cons u us =>
      obtain ⟨k, q⟩ := u
      cases k with
      | comma => exact hcomma q us rfl
      | _ => cases hvs
  | case4 t us hcomma hkey => exact hnone hkey
  | case5 => rfl

private theorem readMark_settle (keyword : Text) (place : Place) (mark : Text → Statement) (ts : List (Token Kind)) :
    readMark keyword place mark (settle ts) =
      ((readMark keyword place mark ts).1, settle (readMark keyword place mark ts).2) := by
  cases ts with
  | nil => rfl
  | cons t ts =>
    simp only [settle, readMark, Kind.key?_settled]
    cases t.kind.key? <;> rfl

private theorem readDeclaration_settle (finish : Place) (kind : ParticipantKind) (ts : List (Token Kind)) :
    readDeclaration finish kind (settle ts) =
      ((readDeclaration finish kind ts).1, settle (readDeclaration finish kind ts).2) := by
  cases ts with
  | nil => rfl
  | cons t ts =>
    simp only [settle, readDeclaration, Kind.key?_settled, readDisplay_settle]
    cases t.kind.key? <;> rfl

private theorem readMessage_settle (source : Text) (place : Place) (ts : List (Token Kind)) :
    readMessage source place (settle ts) =
      ((readMessage source place ts).1, settle (readMessage source place ts).2) := by
  have hother : ∀ ts, (Statement.noArrow source place, skipLine (settle ts)) =
      (Statement.noArrow source place, settle (skipLine ts)) := fun ts => by rw [skipLine_settle]
  cases ts with
  | nil => rfl
  | cons t ts =>
    obtain ⟨k, p⟩ := t
    cases k with
    | arrow type =>
      cases ts with
      | nil => rfl
      | cons t us =>
        have hcarry : Kind.settled (t :: us) (.arrow type) = .arrow type := rfl
        simp only [settle, hcarry, readMessage, Kind.key?_settled, readColonText_settle]
        cases t.kind.key? <;> rfl
    | _ => exact hother (_ :: ts)

private theorem readNote_settle (place : Place) (ts : List (Token Kind)) :
    readNote place (settle ts) = ((readNote place ts).1, settle (readNote place ts).2) := by
  simp only [readNote, readPosition_settle, readKeys_settle, readColonText_settle]
  split <;> rfl

private theorem startOf_settle (finish : Place) (ts : List (Token Kind)) :
    startOf finish (settle ts) = startOf finish ts := by
  cases ts <;> rfl

private theorem readStatement_settle (finish : Place) (inside : List BlockKind) (t : Token Kind)
    (ts : List (Token Kind)) : readStatement finish inside ⟨t.kind.settled ts, t.place⟩ (settle ts) =
      ((readStatement finish inside t ts).1, settle (readStatement finish inside t ts).2) := by
  obtain ⟨k, p⟩ := t
  have hskip : readStatement.skip ⟨k.settled ts, p⟩ (settle ts) =
      ((readStatement.skip ⟨k, p⟩ ts).1, settle (readStatement.skip (⟨k, p⟩ : Token Kind) ts).2) := by
    simp only [readStatement.skip, Kind.name_settled, skipLine_settle]
  cases k with
  | declare kind => exact readDeclaration_settle finish kind ts
  | note spelling => exact readNote_settle p ts
  | opening block b =>
    simp only [readStatement, Kind.settled, Kind.carry, Kind.behind, readText_settle, startOf_settle]
  | activate => exact readMark_settle _ p _ ts
  | deactivate => exact readMark_settle _ p _ ts
  | word name => exact readMessage_settle name p ts
  | string value => exact readMessage_settle value p ts
  | closing =>
    simp only [readStatement, Kind.settled, Kind.carry]
    split
    · exact hskip
    · rfl
  | branch b =>
    simp only [readStatement, Kind.settled, Kind.carry, Kind.behind, readText_settle]
    split
    · rfl
    · exact hskip
  | _ => exact hskip

private theorem statements_settle (finish : Place) (inside : List BlockKind) (ts : List (Token Kind)) :
    statements finish inside (settle ts) = statements finish inside ts := by
  induction hn : ts.length using Nat.strongRecOn generalizing ts inside with
  | ind n ih =>
    subst hn
    cases ts with
    | nil => rfl
    | cons t ts =>
      have hle := (readStatement_suffix finish inside t ts).length_le
      rw [settle, statements, statements, Kind.isBreak_settled, readStatement_settle]
      split
      · exact ih _ (by simp) inside ts rfl
      · dsimp only
        rw [ih _ (by rw [List.length_cons]; omega) _ _ rfl]

/-- The statements of tokens need no more than the free text behind each of them. -/
theorem document_settle (ts : List (Token Kind)) (finish : Place) :
    document ⟨settle ts, finish⟩ = document ⟨ts, finish⟩ := by
  unfold document
  dsimp only
  rw [skipTokens_settle fun ts k => k.isBreak_settled ts]
  generalize skipTokens Kind.isBreak ts = us
  have hsame := statements_settle finish [] us
  cases us with
  | nil => rfl
  | cons t us =>
    obtain ⟨k, p⟩ := t
    cases k with
    | header => exact statements_settle finish [] us
    | _ => exact hsame

/-- With returns at all line breaks a text has the same diagram, or the same errors on the same lines. -/
theorem outcome_withReturns (stack : Stack) {s : Text} (hclosed : ClosedStrings rule Kind.string? s) :
    (read stack s.withReturns).outcome.mapError (List.map (ParseError.move Place.lineStart)) =
      (read stack s).outcome.mapError (List.map (ParseError.move Place.lineStart)) := by
  obtain ⟨htokens, hfinish⟩ := settle_view.tokens_withReturns returnable rule_lineLocal hclosed
  have hsettled : ∀ cut : Tokens Kind, (document cut).map (Statement.move Place.lineStart) =
      document ⟨(settle cut.tokens).map (Token.move Place.lineStart), cut.finish.lineStart⟩ := by
    intro cut
    rw [document_map_move, document_settle]
  refine outcome_congr stack ?_
  rw [hsettled, hsettled, htokens, hfinish]

end DiagramText.Sequence

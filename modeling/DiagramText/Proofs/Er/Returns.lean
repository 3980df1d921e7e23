import DiagramText.Proofs.Er.Lexing
import DiagramText.Proofs.Er.Places
import DiagramText.Proofs.Returns

/-!
# Returns in entity-relationship text

Of the tokens of the dialect only comments take up a return at the end of their line (`returnable`), and no reader asks
what a comment says (`document_muted`).
-/

namespace DiagramText.Er

namespace Kind

/-- The token with a return at the end of its line. -/
def withReturn : Kind → Kind
  | comment text => comment (text ++ ['\r'])
  | k => k

/-- The token without what a comment says. -/
def mute : Kind → Kind
  | comment _ => comment []
  | k => k

theorem mute_withReturn (k : Kind) : k.withReturn.mute = k.mute := by cases k <;> rfl

theorem withReturn_ofWord (w : Text) : (ofWord w).withReturn = ofWord w := by
  unfold ofWord
  split
  · rfl
  · split <;> rfl

theorem mutes : Mutes isBreak mute where
  isBreak_eq k := by cases k <;> rfl
  eq_of_not_break k hk := by
    cases k with
    | comment => cases hk
    | _ => rfl

end Kind

/-! ### The rule in front of a return -/

theorem returnable : Returnable rule Kind.string? Kind.withReturn where
  found c r hc hr hclosed := by
    have hline : '\n' ∉ r ++ ['\r'] := by simp [hr]
    have hhead : (r ++ ['\r']).head? = some '%' ↔ r.head? = some '%' := by cases r <;> simp
    have hsymbol : relationSymbol? (c :: (r ++ ['\r'])) = relationSymbol? (c :: r) :=
      relationSymbol?_append_blank (by decide) (c :: r) []
    have hword : (r ++ ['\r']).takeWhile Text.isWordChar = r.takeWhile Text.isWordChar :=
      Text.takeWhile_append_of_neg (by decide) r []
    have hquoted : c = '"' → Text.quoted (r ++ ['\r']) = Text.quoted r := by
      rintro rfl
      exact Text.quoted_append_of_mem (Or.inl (quote_mem_of_closed (hclosed _ rfl _ rfl))) _
    unfold rule
    simp only [hc, hhead, hsymbol, hword, Text.firstLine_of_not_mem hline, Text.firstLine_of_not_mem hr, if_false]
    split
    · exact ⟨rfl, Or.inr ⟨rfl, by simp⟩⟩
    split
    · exact ⟨rfl, Or.inl rfl⟩
    split
    · exact ⟨rfl, Or.inl rfl⟩
    split
    · rename_i hquote
      rw [hquoted hquote]
      exact ⟨rfl, Or.inl rfl⟩
    split
    · exact ⟨rfl, Or.inl rfl⟩
    split
    · exact ⟨rfl, Or.inl rfl⟩
    split
    · exact ⟨congrArg some (Kind.withReturn_ofWord _).symm, Or.inl rfl⟩
    · exact ⟨rfl, Or.inl rfl⟩

/-! ### Readers of muted tokens -/

/-- The tokens without what comments say. -/
abbrev muted (ts : List (Token Kind)) : List (Token Kind) := ts.map (Token.recast Kind.mute)

private theorem heads_muted (ts : List (Token Kind)) : skipBreaks ts = [] ∧ skipBreaks (muted ts) = [] ∨
    ∃ k p us, k.isBreak = false ∧ skipBreaks ts = ⟨k, p⟩ :: us ∧ skipBreaks (muted ts) = ⟨k, p⟩ :: muted us :=
  Kind.mutes.heads ts

private theorem readKeys_muted (ts : List (Token Kind)) :
    readKeys (muted ts) = ((readKeys ts).1, muted (readKeys ts).2) := by
  fun_induction readKeys ts with
  | case1 k w p ts ih => exact congrArg (fun read : List Key × List (Token Kind) => (k :: read.1, read.2)) ih
  | case2 ts hkey =>
    cases ts with
    | nil => rfl
    | cons t ts =>
      obtain ⟨k, p⟩ := t
      cases k with
      | key k w => exact absurd rfl (hkey k w p ts)
      | _ => rfl

private theorem readComment_muted (ts : List (Token Kind)) :
    readComment (muted ts) = ((readComment ts).1, muted (readComment ts).2) := by
  cases ts with
  | nil => rfl
  | cons t ts =>
    obtain ⟨k, p⟩ := t
    cases k <;> rfl

private theorem readAttribute_muted (type name : Text) (ts : List (Token Kind)) :
    readAttribute type name (muted ts) = ((readAttribute type name ts).1, muted (readAttribute type name ts).2) := by
  simp only [readAttribute, readKeys_muted, readComment_muted]

private theorem exists_word_of_muted {name : Text} {p : Place} {ts us : List (Token Kind)}
    (h : muted ts = ⟨.word name, p⟩ :: us) : ∃ vs, ts = ⟨.word name, p⟩ :: vs := by
  cases ts with
  | nil => cases h
  | cons t ts =>
    obtain ⟨k, q⟩ := t
    cases k with
    | word w =>
      cases h
      exact ⟨ts, rfl⟩
    | _ => cases h

private theorem readBlock_muted (ts : List (Token Kind)) :
    readBlock (muted ts) = ⟨(readBlock ts).entries, (readBlock ts).closed, muted (readBlock ts).rest⟩ := by
  fun_induction readBlock ts with
  | case1 => exact readBlock.eq_1
  | case2 p ts => exact readBlock.eq_2 p _
  | case3 type p name q ts read ih =>
    show readBlock (⟨.word type, p⟩ :: ⟨.word name, q⟩ :: muted ts) = _
    rw [readBlock, readAttribute_muted, ih]
    rfl
  | case4 type p ts hname ih =>
    show readBlock (⟨.word type, p⟩ :: muted ts) = _
    rw [readBlock, ih]
    · rfl
    · intro name q us hus
      obtain ⟨vs, hvs⟩ := exists_word_of_muted hus
      exact hname name q vs hvs
  | case5 t ts hclose _ hword ih =>
    obtain ⟨k, p⟩ := t
    have hpass : ∀ k : Kind, k ≠ .closeBrace → (∀ w, k ≠ .word w) → ∀ us, readBlock (⟨k, p⟩ :: us) = readBlock us := by
      intro k hk hk' us
      cases k with
      | closeBrace => exact absurd rfl hk
      | word w => exact absurd rfl (hk' w)
      | _ => rw [readBlock] <;> simp
    cases k with
    | closeBrace => exact absurd rfl (hclose p)
    | word w => exact absurd rfl (hword w p)
    | _ => exact (hpass _ (by simp [Kind.mute]) (by simp [Kind.mute]) (muted ts)).trans ih

private theorem readLabel_muted (ts : List (Token Kind)) :
    readLabel (muted ts) = ((readLabel ts).1, muted (readLabel ts).2) := by
  unfold readLabel
  obtain ⟨hts, hus⟩ | ⟨k, p, us, hbreak, hts, hus⟩ := heads_muted ts
  · rw [hts, hus]
    rfl
  · rw [hts, hus]
    cases k with
    | colon =>
      dsimp only
      obtain ⟨hts, hus⟩ | ⟨k, p, vs, hbreak, hts, hus⟩ := heads_muted us
      · rw [hts, hus]
        rfl
      · rw [hts, hus]
        cases k with
        | comment => cases hbreak
        | _ => rfl
    | comment => cases hbreak
    | _ => rfl

private theorem readStatement_muted (name : Text) (ts : List (Token Kind)) :
    readStatement name (muted ts) = ((readStatement name ts).1, muted (readStatement name ts).2) := by
  unfold readStatement
  obtain ⟨hts, hus⟩ | ⟨k, p, us, hbreak, hts, hus⟩ := heads_muted ts
  · rw [hts, hus]
    rfl
  · rw [hts, hus]
    cases k with
    | openBrace =>
      dsimp only
      rw [readBlock_muted]
    | relation symbol =>
      dsimp only
      obtain ⟨hts, hus⟩ | ⟨k, q, vs, hbreak, hts, hus⟩ := heads_muted us
      · rw [hts, hus]
        rfl
      · rw [hts, hus]
        cases k with
        | word target =>
          dsimp only
          rw [readLabel_muted]
        | comment => cases hbreak
        | _ => rfl
    | comment => cases hbreak
    | _ => rfl

private theorem statements_muted (ts : List (Token Kind)) : statements (muted ts) = statements ts := by
  induction hn : ts.length using Nat.strongRecOn generalizing ts with
  | ind n ih =>
    subst hn
    rw [← statements_skipBreaks ts, ← statements_skipBreaks (muted ts)]
    obtain ⟨hts, hus⟩ | ⟨k, p, us, hbreak, hts, hus⟩ := heads_muted ts
    · rw [hts, hus]
    · have hlt : us.length < ts.length := length_of_skipTokens hts
      rw [hts, hus]
      cases k with
      | word name =>
        have hle := (readStatement_suffix name us).length_le
        rw [statements, statements, readStatement_muted, ih _ (by omega) _ rfl]
      | newline => cases hbreak
      | comment => cases hbreak
      | _ => rw [statements, statements, ih _ hlt _ rfl] <;> simp

/-- What comments say does not matter to the statements. -/
theorem document_muted (ts : List (Token Kind)) : document (muted ts) = document ts := by
  unfold document
  obtain ⟨hts, hus⟩ | ⟨k, p, us, hbreak, hts, hus⟩ := heads_muted ts
  · rw [hts, hus]
  · rw [hts, hus]
    have hsame := statements_muted (⟨k, p⟩ :: us)
    cases k with
    | header => exact statements_muted us
    | comment => cases hbreak
    | _ => exact hsame

/-- With returns at all line breaks a text has the same diagram, or the same errors on the same lines. -/
theorem outcome_withReturns {s : Text} (hclosed : ClosedStrings rule Kind.string? s) :
    (read s.withReturns).outcome.mapError (List.map (ParseError.move Place.lineStart)) =
      (read s).outcome.mapError (List.map (ParseError.move Place.lineStart)) := by
  have hview : View .newline Kind.withReturn muted := .ofMap rfl Kind.mute_withReturn
  obtain ⟨htokens, hfinish⟩ := hview.tokens_withReturns returnable rule_lineLocal hclosed
  have hmuted : ∀ ts, (document ts).map (Statement.move Place.lineStart) =
      document ((muted ts).map (Token.move Place.lineStart)) := by
    intro ts
    rw [document_map_move, document_muted]
  refine outcome_congr ?_ hfinish
  rw [hmuted, htokens, ← hmuted]

end DiagramText.Er

import DiagramText.Proofs.Flowchart.Lexing
import DiagramText.Proofs.Flowchart.Places
import DiagramText.Proofs.Returns

/-!
# Returns in flowchart text

A return at the end of a line belongs to no link and to no bracket.  It goes into a comment, or into a label that is not
closed, which drops it with its outer blanks (`readShape_append_return`).  So of the tokens only comments take it up
(`returnable`), and no reader asks what a comment says (`document_muted`).
-/

namespace DiagramText.Flowchart

namespace Kind

/-- The token with a return at the end of its line. -/
def withReturn : Kind → Kind
  | comment text => comment (text ++ ['\r'])
  | k => k

/-- The token without what a comment says. -/
def mute : Kind → Kind
  | comment _ => comment []
  | k => k

theorem mute_withReturn (k : Kind) : k.withReturn.mute = k.mute := by cases k <;> rfl

theorem withReturn_of_ofReserved? {w : Text} {k : Kind} (h : ofReserved? w = some k) : k.withReturn = k := by
  cases k with
  | comment text =>
    unfold ofReserved? at h
    split at h
    · cases h
    split at h
    · cases h
    cases hkeyword : Keyword.ofWord? w <;> cases hdirection : Direction.ofWord? w <;> simp [hkeyword, hdirection] at h
  | _ => rfl

theorem mutes : Mutes isBreak mute where
  isBreak_eq k := by cases k <;> rfl
  eq_of_not_break k hk := by
    cases k with
    | comment => cases hk
    | _ => rfl

end Kind

/-! ### Labels in front of a return -/

theorem Shape.candidates_append_return (s : Text) : candidates (s ++ ['\r']) = candidates s := by
  have hopener : ∀ sh : Shape, sh.opener.isPrefixOf (s ++ ['\r']) = sh.opener.isPrefixOf s := fun sh =>
    Text.isPrefixOf_append_of_not_mem (fun h => absurd (isBracket_of_mem_opener h) (by decide)) s []
  unfold candidates
  simp only [hopener]

theorem Shape.return_not_mem_closer (sh : Shape) : '\r' ∉ sh.closer := fun h =>
  absurd (isBracket_of_mem_closer h) (by decide)

/-- The closing bracket of a label in quotes stands right behind it, or the label is not in quotes. -/
theorem readQuotedLabel_append_return (shapes : List Shape) (body : Text) :
    readQuotedLabel shapes (body ++ ['\r']) = readQuotedLabel shapes body := by
  cases body with
  | nil => rfl
  | cons d r =>
    by_cases hd : d = '"'
    · subst hd
      unfold readQuotedLabel
      simp only [List.cons_append, List.head?_cons, if_true, List.drop_succ_cons, List.drop_zero, Nat.add_comm 1]
      by_cases hquote : '"' ∈ r
      · obtain ⟨label, t, rfl, hlabel⟩ := List.eq_append_cons_of_mem hquote
        have hcloser : ∀ sh : Shape, sh.closer.isPrefixOf (t ++ ['\r']) = sh.closer.isPrefixOf t := fun sh =>
          Text.isPrefixOf_append_of_not_mem sh.return_not_mem_closer t []
        simp only [List.append_assoc, List.cons_append, takeWhile_of_quoted hlabel, List.drop_left, List.head?_cons,
          if_true, List.drop_succ_cons, List.drop_zero, hcloser]
      · have hall : ∀ {u : Text}, '"' ∉ u → (u.drop (u.takeWhile (· != '"')).length).head? ≠ some '"' := by
          intro u hu
          rw [Text.takeWhile_exact fun c hc => by simpa using fun e : c = '"' => hu (e ▸ hc), List.drop_length]
          simp
        rw [if_neg (hall hquote), if_neg (hall (by simp [hquote]))]
    · unfold readQuotedLabel
      rw [if_neg (by simp [hd]), if_neg (by simp [hd])]

theorem readClosedLabel_append_return (shapes : List Shape) (body : Text) :
    readClosedLabel shapes (body ++ ['\r']) = readClosedLabel shapes body := by
  have hfind : ∀ sh : Shape, Text.find? sh.closer (body ++ ['\r']) = Text.find? sh.closer body := fun sh =>
    Text.find?_append_of_not_mem sh.closer_ne_nil sh.return_not_mem_closer body
  have hfirst : firstClosed shapes (body ++ ['\r']) = firstClosed shapes body := by
    unfold firstClosed
    simp only [hfind]
  unfold readClosedLabel
  rw [hfirst]
  rcases firstClosed_cases shapes body with ⟨hnone, -⟩ | ⟨sh, i, hsome, -, hhere, -⟩
  · rw [hnone]
    rfl
  · have hi : i ≤ body.length := by
      have hlength := hhere.length_le
      have hpos := List.length_pos_iff.2 sh.closer_ne_nil
      rw [List.length_drop] at hlength
      omega
    rw [hsome]
    simp only [Option.map_some, List.take_append_of_le_length hi]

/-- Behind a return a shape is read as before, and the return is taken up only with all the rest of the line. -/
theorem readShape_append_return {s : Text} (hs : '\n' ∉ s) : readShape (s ++ ['\r']) = readShape s ∨
    ∃ sh label, readShape s = some ⟨sh, label, s.length⟩ ∧
      readShape (s ++ ['\r']) = some ⟨sh, label, s.length + 1⟩ := by
  have hline : '\n' ∉ s ++ ['\r'] := by simp [hs]
  unfold readShape
  rw [Shape.candidates_append_return, Text.firstLine_of_not_mem hs, Text.firstLine_of_not_mem hline]
  cases hshapes : Shape.candidates s with
  | nil => exact Or.inl rfl
  | cons sh shapes =>
    have hopener : sh.opener.length ≤ s.length := by
      have hmem : sh ∈ Shape.candidates s := hshapes ▸ List.mem_cons_self
      exact (Shape.mem_candidates.1 hmem).1.length_le
    have hbody : sh.opener.length + (s.drop sh.opener.length).length = s.length := by
      rw [List.length_drop]
      omega
    simp only [List.drop_append_of_le_length hopener, readQuotedLabel_append_return, readClosedLabel_append_return]
    cases readQuotedLabel (sh :: shapes) (s.drop sh.opener.length) with
    | some f => exact Or.inl rfl
    | none =>
      cases readClosedLabel (sh :: shapes) (s.drop sh.opener.length) with
      | some f => exact Or.inl rfl
      | none =>
        refine Or.inr ⟨sh, Text.strip (s.drop sh.opener.length), ?_, ?_⟩
        · rw [hbody]
          rfl
        · rw [Text.strip_append_blank (by decide), List.length_append, ← Nat.add_assoc, hbody]
          rfl

/-! ### The rule in front of a return -/

private theorem wordRule_append_return {w behind : Text} (hw : w ≠ []) (hbehind : '\n' ∉ behind) :
    (wordRule w (behind ++ ['\r'])).kind = (wordRule w behind).kind.map Kind.withReturn ∧
      ((wordRule w (behind ++ ['\r'])).more = (wordRule w behind).more ∨
        (wordRule w behind).more + 1 = w.length + behind.length ∧
          (wordRule w (behind ++ ['\r'])).more = (wordRule w behind).more + 1) := by
  have hpos := List.length_pos_iff.2 hw
  have hgap : (behind ++ ['\r']).takeWhile Text.isSpace = behind.takeWhile Text.isSpace :=
    Text.takeWhile_append_of_neg (by decide) behind []
  have hle : (behind.takeWhile Text.isSpace).length ≤ behind.length := (List.takeWhile_prefix _).length_le
  have hrest : '\n' ∉ behind.drop (behind.takeWhile Text.isSpace).length := fun h => hbehind (List.mem_of_mem_drop h)
  unfold wordRule
  cases hk : Kind.ofReserved? w with
  | some k => exact ⟨congrArg some (Kind.withReturn_of_ofReserved? hk).symm, Or.inl rfl⟩
  | none =>
    dsimp only
    rw [hgap, List.drop_append_of_le_length hle]
    rcases readShape_append_return hrest with h | ⟨sh, label, h, h'⟩
    · rw [h]
      cases readShape (behind.drop (behind.takeWhile Text.isSpace).length) with
      | none => exact ⟨rfl, Or.inl rfl⟩
      | some f => exact ⟨rfl, Or.inl rfl⟩
    · rw [h, h']
      refine ⟨rfl, Or.inr ⟨?_, ?_⟩⟩
      · simp only [List.length_drop]
        omega
      · simp only [List.length_drop]
        omega

theorem returnable : Returnable rule (fun _ => none) Kind.withReturn where
  found c r hc hr _ := by
    have hline : '\n' ∉ r ++ ['\r'] := by simp [hr]
    have hhead : (r ++ ['\r']).head? = some '%' ↔ r.head? = some '%' := by cases r <;> simp
    have hlink : readLink (c :: (r ++ ['\r'])) = readLink (c :: r) := readLink_append_blank (by decide) (c :: r)
    have hword : (r ++ ['\r']).takeWhile Text.isWordChar = r.takeWhile Text.isWordChar :=
      Text.takeWhile_append_of_neg (by decide) r []
    have hle : (r.takeWhile Text.isWordChar).length ≤ r.length := (List.takeWhile_prefix _).length_le
    unfold rule
    simp only [hc, hhead, hlink, hword, Text.firstLine_of_not_mem hline, Text.firstLine_of_not_mem hr, if_false]
    split
    · exact ⟨rfl, Or.inr ⟨rfl, by simp⟩⟩
    split
    · rename_i f hf
      have htake : (c :: (r ++ ['\r'])).take f.length = (c :: r).take f.length := by
        rw [← List.cons_append, List.take_append_of_le_length (readLink_length hf).2]
      rw [htake]
      exact ⟨rfl, Or.inl rfl⟩
    split
    · rw [List.drop_append_of_le_length hle]
      obtain ⟨hkind, hmore⟩ := wordRule_append_return (List.cons_ne_nil c (r.takeWhile Text.isWordChar))
        fun h => hr (List.mem_of_mem_drop (i := (r.takeWhile Text.isWordChar).length) h)
      refine ⟨hkind, hmore.imp_right ?_⟩
      rintro ⟨hall, hmore⟩
      rw [List.length_cons, List.length_drop] at hall
      omega
    · exact ⟨rfl, Or.inl rfl⟩

/-! ### Readers of muted tokens -/

/-- The tokens without what comments say. -/
abbrev muted (ts : List (Token Kind)) : List (Token Kind) := ts.map (Token.recast Kind.mute)

private theorem heads_muted (ts : List (Token Kind)) : skipBreaks ts = [] ∧ skipBreaks (muted ts) = [] ∨
    ∃ k p us, k.isBreak = false ∧ skipBreaks ts = ⟨k, p⟩ :: us ∧ skipBreaks (muted ts) = ⟨k, p⟩ :: muted us :=
  Kind.mutes.heads ts

private theorem skipBreaks_muted (ts : List (Token Kind)) : skipBreaks (muted ts) = muted (skipBreaks ts) :=
  Kind.mutes.skipTokens_recast ts

private theorem readTail_muted (ts : List (Token Kind)) :
    readTail (muted ts) = { readTail ts with rest := muted (readTail ts).rest } := by
  induction hn : ts.length using Nat.strongRecOn generalizing ts with
  | ind n ih =>
    subst hn
    obtain ⟨hts, hus⟩ | ⟨k, p, us, -, hts, hus⟩ := heads_muted ts
    · rw [readTail_nil (by simp [hus]), readTail_nil (by simp [hts]), skipBreaks_muted]
    · cases k with
      | link symbol l =>
        obtain ⟨hts', hus'⟩ | ⟨k, q, vs, -, hts', hus'⟩ := heads_muted us
        · rw [readTail_loose hus (by simp [hus']), readTail_loose hts (by simp [hts']), skipBreaks_muted]
        · cases hm : k.mention? with
          | some m =>
            have hlt := length_of_skipTokens hts
            have hlt' := length_of_skipTokens hts'
            rw [readTail_cons hus hus' hm, readTail_cons hts hts' hm, ih _ (by omega) vs rfl]
          | none =>
            rw [readTail_loose hus, readTail_loose hts, skipBreaks_muted]
            · intro t us ht
              rw [hts'] at ht
              cases ht
              exact hm
            · intro t us ht
              rw [hus'] at ht
              cases ht
              exact hm
      | _ => rw [readTail_nil (by simp [hus]), readTail_nil (by simp [hts]), skipBreaks_muted]

private theorem readWords_muted (ts : List (Token Kind)) :
    readTitle.readWords (muted ts) = ((readTitle.readWords ts).1, muted (readTitle.readWords ts).2) := by
  fun_induction readTitle.readWords ts with
  | case1 w p ts ih => exact congrArg (fun read : List Text × List (Token Kind) => (w :: read.1, read.2)) ih
  | case2 ts hword =>
    cases ts with
    | nil => rfl
    | cons t ts =>
      obtain ⟨k, p⟩ := t
      cases k with
      | word w => exact absurd rfl (hword w p ts)
      | _ => rfl

private theorem readTitle_muted (ts : List (Token Kind)) :
    readTitle (muted ts) = ((readTitle ts).1, muted (readTitle ts).2) := by
  have hwords : ∀ ts, (Text.unwords (readTitle.readWords (muted ts)).1, (readTitle.readWords (muted ts)).2) =
      (Text.unwords (readTitle.readWords ts).1, muted (readTitle.readWords ts).2) := fun ts => by
    rw [readWords_muted]
  cases ts with
  | nil => rfl
  | cons t ts =>
    obtain ⟨k, p⟩ := t
    cases k with
    | node w shape label => rfl
    | _ => exact hwords (_ :: ts)

private theorem readDirection_muted (ts : List (Token Kind)) :
    readDirection (muted ts) = ((readDirection ts).1, muted (readDirection ts).2) := by
  unfold readDirection
  obtain ⟨hts, hus⟩ | ⟨k, p, us, hbreak, hts, hus⟩ := heads_muted ts
  · rw [hts, hus]
    rfl
  · rw [hts, hus]
    cases k with
    | comment => cases hbreak
    | _ => rfl

private theorem readInnerDirection_muted (ts : List (Token Kind)) :
    readInnerDirection (muted ts) = ((readInnerDirection ts).1, muted (readInnerDirection ts).2) := by
  unfold readInnerDirection
  obtain ⟨hts, hus⟩ | ⟨k, p, us, hbreak, hts, hus⟩ := heads_muted ts
  · rw [hts, hus]
    rfl
  · rw [hts, hus]
    cases k with
    | keyword w =>
      cases w with
      | direction => exact readDirection_muted us
      | _ => rfl
    | comment => cases hbreak
    | _ => rfl

private theorem startOf_muted (finish : Place) (ts : List (Token Kind)) :
    startOf finish (muted ts) = startOf finish ts := by
  cases ts <;> rfl

private theorem readStatement_muted (finish : Place) (t : Token Kind) (ts : List (Token Kind)) :
    readStatement finish t (muted ts) = ((readStatement finish t ts).1, muted (readStatement finish t ts).2) := by
  unfold readStatement
  cases t.kind.mention? with
  | some m =>
    dsimp only
    rw [readTail_muted]
  | none =>
    cases t.kind with
    | opening =>
      dsimp only
      rw [readTitle_muted, readInnerDirection_muted, startOf_muted, startOf_muted]
    | _ => rfl

private theorem statements_muted (finish : Place) (ts : List (Token Kind)) :
    statements finish (muted ts) = statements finish ts := by
  induction hn : ts.length using Nat.strongRecOn generalizing ts with
  | ind n ih =>
    subst hn
    rw [← statements_skipBreaks finish ts, ← statements_skipBreaks finish (muted ts)]
    obtain ⟨hts, hus⟩ | ⟨k, p, us, hbreak, hts, hus⟩ := heads_muted ts
    · rw [hts, hus]
    · have hlt : us.length < ts.length := length_of_skipTokens hts
      have hle := (readStatement_suffix finish ⟨k, p⟩ us).length_le
      rw [hts, hus, statements_start finish hbreak, statements_start finish hbreak, readStatement_muted,
        ih _ (by omega) _ rfl]

/-- What comments say does not matter to the statements. -/
theorem document_muted (finish : Place) (ts : List (Token Kind)) :
    document ⟨muted ts, finish⟩ = document ⟨ts, finish⟩ := by
  unfold document
  dsimp only
  obtain ⟨hts, hus⟩ | ⟨k, p, us, hbreak, hts, hus⟩ := heads_muted ts
  · rw [hts, hus]
  · rw [hts, hus]
    have hsame : ∀ k p, k.isBreak = false →
        statements finish (⟨k, p⟩ :: muted us) = statements finish (⟨k, p⟩ :: us) := by
      intro k p hk
      rw [statements_start finish hk, statements_start finish hk, readStatement_muted, statements_muted]
    cases k with
    | keyword w =>
      cases w with
      | direction => exact congrArg (Prod.mk _) (hsame _ _ hbreak)
      | _ =>
        dsimp only
        rw [readDirection_muted, statements_muted]
    | comment => cases hbreak
    | _ => exact congrArg (Prod.mk _) (hsame _ _ hbreak)

/-- With returns at all line breaks a text has the same diagram, or the same errors on the same lines. -/
theorem outcome_withReturns (stack : Stack) (s : Text) :
    (read stack s.withReturns).outcome.mapError (List.map (ParseError.move Place.lineStart)) =
      (read stack s).outcome.mapError (List.map (ParseError.move Place.lineStart)) := by
  have hview : View .newline Kind.withReturn muted := .ofMap rfl Kind.mute_withReturn
  have hclosed : ClosedStrings rule (fun _ => none) s := fun _ _ _ hvalue => by cases hvalue
  obtain ⟨htokens, hfinish⟩ := hview.tokens_withReturns returnable rule_lineLocal hclosed
  have hmuted : ∀ cut : Tokens Kind,
      document ⟨(muted cut.tokens).map (Token.move Place.lineStart), cut.finish.lineStart⟩ =
        ((document cut).1, (document cut).2.map (Statement.move Place.lineStart)) := by
    intro cut
    rw [← document_map_move]
    exact (document_map_move _ ⟨muted cut.tokens, cut.finish⟩).trans (by rw [document_muted, document_map_move])
  have hdocument := hmuted (tokenize rule s.withReturns)
  rw [htokens, hfinish, hmuted, Prod.mk.injEq] at hdocument
  exact outcome_congr stack hdocument.1.symm hdocument.2.symm

end DiagramText.Flowchart

import DiagramText.Proofs.Sequence.Parsed
import DiagramText.Proofs.Sequence.Trailed
import Mathlib.Data.List.TakeWhile

/-!
# Statements in front of the end of a line

No statement reaches over the end of its line: those in front of it are read on their own, and what follows is read
inside the blocks that they leave open (`statements_trailed`, `document_trailed`).  A comment at the end changes none of
them, unless the last one is `Renamed`: it declares a participant and gives it a string as its name, and now has the
free text instead.
-/

namespace DiagramText.Sequence

section

variable {tail : List Kind} {ts us : List (Token Kind)}

/-! ### Statements in front of other tokens -/

/-- The kinds of the open blocks behind statements. -/
def insideBehind (inside : List BlockKind) (sts : List Statement) : List BlockKind :=
  sts.foldl (fun inside st => st.inside inside) inside

private theorem statements_nil (inside : List BlockKind) : statements {} inside [] = [] := by rw [statements]

private theorem statements_of_break {k : Kind} (hk : k.isBreak = true) (inside : List BlockKind)
    (ts : List (Token Kind)) : statements {} inside (⟨k, {}⟩ :: ts) = statements {} inside ts := by
  rw [statements, if_pos hk]

private theorem statements_of_not_break {k : Kind} (hk : ¬ k.isBreak = true) (inside : List BlockKind)
    (ts : List (Token Kind)) : statements {} inside (⟨k, {}⟩ :: ts) = (readStatement {} inside ⟨k, {}⟩ ts).1 ::
      statements {} ((readStatement {} inside ⟨k, {}⟩ ts).1.inside inside) (readStatement {} inside ⟨k, {}⟩ ts).2 := by
  rw [statements, if_neg hk]

/-- What is last is last in what is left, if anything is. -/
private theorem last_suffix_of_suffix {k : Kind} {ks ks' : List Kind} (h : [k] <:+ ks) (hrest : ks' <:+ ks) :
    ks' = [] ∨ [k] <:+ ks' := by
  rcases List.suffix_or_suffix_of_suffix h hrest with h | h
  · exact Or.inr h
  · rcases List.suffix_cons_iff.1 h with rfl | h
    · exact Or.inr (List.suffix_refl _)
    · exact Or.inl (List.suffix_nil.1 h)

/-- What is at the end of tokens is at the end of those that are left where a participant is the last statement. -/
private theorem suffix_of_getLast? {inside : List BlockKind} {kind : ParticipantKind} {key b value : Text}
    {name : Option Text} {rest : List (Token Kind)} (hrest : rest <:+ ts)
    (h : [.display b, .string value] <:+ ts.map Token.kind)
    (hlast : (statements {} inside rest).getLast? = some (.participant kind key name)) :
    [.display b, .string value] <:+ rest.map Token.kind := by
  rcases List.suffix_or_suffix_of_suffix h (hrest.map Token.kind) with h | h
  · exact h
  · rcases List.suffix_cons_iff.1 h with h | h
    · rw [h]
    · -- a string alone is a line without an arrow
      rcases List.suffix_cons_iff.1 h with h | h
      · obtain ⟨⟨k, p⟩, rfl, rfl⟩ := List.map_eq_singleton_iff.1 h
        have hstatements : statements {} inside [⟨.string value, p⟩] = [.noArrow value p] := by
          simp [statements, Kind.isBreak, readStatement, readMessage, skipLine, skipTokens]
        rw [hstatements] at hlast
        cases hlast
      · rw [List.map_eq_nil_iff.1 (List.suffix_nil.1 h), statements] at hlast
        cases hlast

private theorem isBreak_of_statements_eq_nil {inside : List BlockKind} (h : statements {} inside ts = []) :
    ∀ t ∈ ts, t.kind.isBreak = true := by
  induction ts with
  | nil => simp
  | cons t ts ih =>
    rw [statements] at h
    split at h
    · rename_i ht
      exact List.forall_mem_cons.2 ⟨ht, ih h⟩
    · cases h

/-- Only a declaration declares a participant. -/
private theorem readStatement_participant {inside : List BlockKind} {t : Token Kind} {kind : ParticipantKind}
    {key : Text} {name : Option Text} (h : (readStatement {} inside t ts).1 = .participant kind key name) :
    ∃ t' ts', t.kind = .declare kind ∧ ts = t' :: ts' ∧ t'.kind.key? = some key ∧
      readDisplay ts' = (name, (readStatement {} inside t ts).2) := by
  have hmark : ∀ keyword place (mark : Text → Statement), (∀ key', mark key' ≠ .participant kind key name) →
      (readMark keyword place mark ts).1 ≠ .participant kind key name := by
    intro keyword place mark hmark
    unfold readMark
    split
    · simp
    · split
      · exact hmark _
      · simp
  have hmessage : ∀ source place, (readMessage source place ts).1 ≠ .participant kind key name := by
    intro source place
    unfold readMessage
    split
    · split
      · simp
      · split <;> simp
    · simp
  obtain ⟨k, p⟩ := t
  cases k with
  | declare kind' =>
    have hread : readStatement {} inside ⟨.declare kind', p⟩ ts = readDeclaration {} kind' ts := rfl
    rw [hread] at h ⊢
    rcases ts with _ | ⟨t', ts'⟩
    · cases h
    · simp only [readDeclaration] at h ⊢
      cases hkey : t'.kind.key? with
      | none =>
        rw [hkey] at h
        cases h
      | some key' =>
        rw [hkey] at h
        cases h
        exact ⟨t', ts', rfl, rfl, hkey, rfl⟩
  | note spelling =>
    simp only [readStatement, readNote] at h
    split at h <;> cases h
  | activate => exact absurd h (hmark _ p .activate (by simp))
  | deactivate => exact absurd h (hmark _ p .deactivate (by simp))
  | word source => exact absurd h (hmessage source p)
  | string source => exact absurd h (hmessage source p)
  | closing =>
    simp only [readStatement] at h
    split at h <;> cases h
  | branch b =>
    simp only [readStatement] at h
    split at h <;> cases h
  | _ => cases h

/-- Nothing follows a comment on its line. -/
private theorem lineEnd_behind_comment {s text : Text} {ks ks' : List Kind}
    (h : kinds rule s = ks ++ .comment text :: ks') : LineEnd ks' := by
  induction ks generalizing s with
  | nil =>
    obtain ⟨c, r, -, -, hk, rfl⟩ := exists_rule_of_kinds_eq_cons h
    have hcase := ruleCase c r
    generalize rule c r = found at hk hcase ⊢
    cases hcase with
    | comment hc hr =>
      rcases Text.firstLine_cases r with hline | ⟨r', hline⟩
      · have hdrop : r.drop (Text.firstLine r).length = [] := by
          rw [← hline, List.drop_length]
        rw [hdrop, kinds_nil]
        simp [LineEnd]
      · have hdrop : r.drop (Text.firstLine r).length = '\n' :: r' := by
          conv_lhs => rw [hline, Text.firstLine_append_break (Text.break_not_mem_firstLine r), List.drop_left]
        rw [hdrop, kinds_cons rule (by decide), rule_lineLocal.at_break]
        simp [LineEnd]
    | plain hr hw hplain =>
      cases hk
      exact absurd hplain id
    | _ => cases hk
  | cons k ks ih =>
    obtain ⟨c, r, -, -, -, hks⟩ := exists_rule_of_kinds_eq_cons h
    exact ih hks.symm

/-- There is no comment on a line that ends with another token. -/
private theorem comment_not_mem {s : Text} {k : Kind} {ks : List Kind} (h : kinds rule s = ks ++ [k])
    (hline : .newline ∉ ks ++ [k]) (text : Text) : .comment text ∉ ks := by
  intro hmem
  obtain ⟨before, after, rfl⟩ := List.append_of_mem hmem
  rw [List.append_assoc, List.cons_append] at h
  have hend := lineEnd_behind_comment h
  refine hline (List.mem_append.2 ?_)
  cases after with
  | nil => exact Or.inr (List.mem_singleton.2 (hend k rfl).symm)
  | cons k' after =>
    rw [← hend k' rfl]
    exact Or.inl (by simp)

/-- Where a string is the last token of a line, the free text of the line has a quote. -/
private theorem quote_mem_readText {b value : Text} {p : Place} (hcut : Cut (⟨.display b, p⟩ :: ts))
    (hline : skipLine ts = []) (h : [.string value] <:+ ts.map Token.kind) : '"' ∈ (readText b ts).1 := by
  obtain ⟨rest, hrest, hb⟩ := hcut.cons
  have hb : b = Text.firstLine rest := hb
  have hnewline : .newline ∉ ts.map Token.kind := by
    intro hmem
    obtain ⟨t, ht, hkind⟩ := List.mem_map.1 hmem
    simpa [hkind] using List.dropWhile_eq_nil_iff.1 hline t ht
  obtain ⟨ks, hks⟩ := h
  have hnone : lineComment ts = [] := by
    rw [lineComment_eq, List.findSome?_eq_none_iff.2]
    · rfl
    · intro k hk
      cases k with
      | comment text =>
        have hmem := (List.takeWhile_prefix _).subset hk
        rw [← hks, List.mem_append] at hmem
        rcases hmem with hmem | hmem
        · exact absurd hmem (comment_not_mem (hrest ▸ hks.symm) (hks ▸ hnewline) text)
        · simp at hmem
      | _ => rfl
  -- a text without quotes gives no string
  have hquote : '"' ∈ b := by
    by_contra hquote
    obtain ⟨rest', hkinds, hend⟩ := kinds_firstLine rest
    have hmem : .string value ∈ ts.map Token.kind := hks ▸ List.mem_append_right ks (List.mem_singleton_self _)
    rw [hrest, hkinds, List.mem_append] at hmem
    obtain hmem | hmem := hmem
    · exact not_string_of_mem_kinds (hb ▸ hquote) value hmem
    · cases rest' with
      | nil => cases hmem
      | cons k rest' =>
        refine hnewline ?_
        rw [hrest, hkinds, hend k rfl]
        simp
  rw [readText, hnone, List.length_nil, Nat.sub_zero, List.take_length]
  exact Text.mem_strip hquote (by decide)

private theorem quote_not_mem_of_suffix {value : Text} (hcut : Cut ts) (h : [.string value] <:+ ts.map Token.kind) :
    '"' ∉ value := by
  obtain ⟨ks, hks⟩ := h
  obtain ⟨before, rest, rfl, -, hrest⟩ := List.map_eq_append_iff.1 hks.symm
  obtain ⟨⟨k, p⟩, rfl, rfl⟩ := List.map_eq_singleton_iff.1 hrest
  exact (Text.isQuotable_iff.1 (isQuotable_of_key? (hcut.of_suffix (List.suffix_append before _)) rfl)).1

/-- A participant is declared by the last statement, and called by the string at the end, only if nothing else stands
there. -/
private theorem eq_named_of_last {inside : List BlockKind} {t : Token Kind} {kind : ParticipantKind}
    {key b value : Text} (hcut : Cut (t :: ts)) (h : [.display b, .string value] <:+ (t :: ts).map Token.kind)
    (hread : (readStatement {} inside t ts).1 = .participant kind key (shown value))
    (hrest : (readStatement {} inside t ts).2 = []) :
    ∃ k b', k.key? = some key ∧ (t :: ts).map Token.kind = [.declare kind, k, .display b', .string value] := by
  obtain ⟨t', ts', hkind, rfl, hkey, hdisplay⟩ := readStatement_participant hread
  rw [hrest] at hdisplay
  have hstring : [.string value] <:+ (t :: t' :: ts').map Token.kind := (List.suffix_cons _ _).trans h
  by_cases hts : ∃ b' p us, ts' = ⟨.display b', p⟩ :: us
  · obtain ⟨b', p, us, rfl⟩ := hts
    have hus : [.string value] <:+ us.map Token.kind := by
      have hsuffix : us.map Token.kind <:+ (t :: t' :: ⟨.display b', p⟩ :: us).map Token.kind :=
        ⟨[t.kind, t'.kind, .display b'], rfl⟩
      rcases last_suffix_of_suffix hstring hsuffix with hnil | hus
      · obtain ⟨pre, hpre⟩ := hstring
        have hlast := congrArg List.getLast? hpre
        rw [List.map_eq_nil_iff.1 hnil] at hlast
        simp at hlast
      · exact hus
    by_cases hends : ∃ value' q vs, us = ⟨.string value', q⟩ :: vs ∧ breaks.Ends vs
    · obtain ⟨value', q, vs, rfl, hvs⟩ := hends
      rw [readDisplay_string hvs] at hdisplay
      obtain ⟨hvalue, rfl⟩ := Prod.mk.inj hdisplay
      rw [shown_inj.1 hvalue]
      exact ⟨t'.kind, b', hkey, by rw [List.map_cons, hkind]; rfl⟩
    · -- free text would keep the quotes
      rw [readDisplay_free fun value' q vs he hvs => hends ⟨value', q, vs, he, hvs⟩] at hdisplay
      obtain ⟨hvalue, hline⟩ := Prod.mk.inj hdisplay
      have hquote := quote_mem_readText hcut.tail.tail hline hus
      rw [shown_inj.1 hvalue] at hquote
      exact absurd hquote (quote_not_mem_of_suffix hcut hstring)
  · have hnone : readDisplay ts' = (none, ts') := by
      rw [readDisplay]
      rintro b' p us rfl
      exact hts ⟨b', p, us, rfl⟩
    rw [hnone] at hdisplay
    obtain ⟨-, rfl⟩ := Prod.mk.inj hdisplay
    have hsame := h.eq_of_length rfl
    rw [List.map_cons, hkind] at hsame
    cases hsame

/-- The last of the statements declares a participant of the given key, and the tokens end with `as` and a string, its
name. -/
def EndsInName (ks : List Kind) (sts : List Statement) (key : Text) : Prop :=
  ∃ kind b value, [.display b, .string value] <:+ ks ∧
    sts.getLast? = some (.participant kind key (shown value))

/-- The tokens end with `as` and a string.  The last statement declares a participant and has the string as the name in
the first list; it has the free text behind `as` in the second one. -/
def Renamed (ks : List Kind) (sts sts' : List Statement) : Prop :=
  ∃ before kind key b value, [.display b, .string value] <:+ ks ∧
    sts = before ++ [.participant kind key (shown value)] ∧
    sts' = before ++ [.participant kind key (shown (Text.strip b))]

private theorem EndsInName.of_suffix {rest : List (Token Kind)} {sts : List Statement} {inside : List BlockKind}
    {key : Text} (h : EndsInName (ts.map Token.kind) sts key) (hrest : rest <:+ ts)
    (hsts : sts.getLast? = (statements {} inside rest).getLast?) :
    EndsInName (rest.map Token.kind) (statements {} inside rest) key := by
  obtain ⟨kind, b, value, hnamed, hlast⟩ := h
  rw [hsts] at hlast
  exact ⟨kind, b, value, suffix_of_getLast? hrest hnamed hlast, hlast⟩

private theorem Renamed.of_suffix {rest : List (Token Kind)} {sts sts' : List Statement}
    (h : Renamed (rest.map Token.kind) sts sts') (hrest : rest <:+ ts) (sts₀ : List Statement) :
    Renamed (ts.map Token.kind) (sts₀ ++ sts) (sts₀ ++ sts') := by
  obtain ⟨before, kind, key, b, value, hnamed, rfl, rfl⟩ := h
  refine ⟨sts₀ ++ before, kind, key, b, value, hnamed.trans (hrest.map _), ?_, ?_⟩ <;> rw [List.append_assoc]

/-- Only breaks at the end of tokens that end with a string are none. -/
private theorem eq_nil_of_breaks {rest : List (Token Kind)} {b value : Text} (hrest : rest <:+ ts)
    (h : [.display b, .string value] <:+ ts.map Token.kind) (hbreaks : ∀ t ∈ rest, t.kind.isBreak = true) :
    rest = [] := by
  rcases last_suffix_of_suffix ((List.suffix_cons _ _).trans h) (hrest.map Token.kind) with hnil | hlast
  · exact List.map_eq_nil_iff.1 hnil
  · obtain ⟨t, ht, hkind⟩ := List.mem_map.1 (hlast.subset (List.mem_singleton_self _))
    have hbreak := hbreaks t ht
    rw [hkind] at hbreak
    cases hbreak

/-- A statement leads to the end in a name only if it is this declaration, or what follows leads there. -/
private theorem not_endsInName_of_read {inside inside' : List BlockKind} {t : Token Kind} (hcut : Cut (t :: ts))
    (hname : ∀ kind k b value, k.key? ≠ none → (t :: ts).map Token.kind ≠ [.declare kind, k, .display b, .string value])
    (hrest : ∀ key, ¬ EndsInName ((readStatement {} inside t ts).2.map Token.kind)
      (statements {} inside' (readStatement {} inside t ts).2) key)
    (key : Text) : ¬ EndsInName ((t :: ts).map Token.kind) ((readStatement {} inside t ts).1 ::
      statements {} inside' (readStatement {} inside t ts).2) key := by
  intro hends
  have hsuffix : (readStatement {} inside t ts).2 <:+ t :: ts :=
    (readStatement_suffix _ _ _ _).trans (List.suffix_cons _ _)
  by_cases hne : statements {} inside' (readStatement {} inside t ts).2 = []
  · obtain ⟨kind, b, value, hnamed, hlast⟩ := hends
    rw [hne] at hlast
    have hnil := eq_nil_of_breaks hsuffix hnamed (isBreak_of_statements_eq_nil hne)
    obtain ⟨k, b', hkey, hkinds⟩ := eq_named_of_last hcut hnamed (Option.some.inj hlast) hnil
    exact hname kind k b' value (by simp [hkey]) hkinds
  · exact hrest key (hends.of_suffix hsuffix (List.getLast?_cons_of_ne_nil hne))

private theorem Trailed.eq_unplaced (h : Trailed tail ts us) : ts = unplaced (ts.map Token.kind) := by
  induction h with
  | stop => rfl
  | @token k s ts us htext hrest ih => exact congrArg (⟨k, {}⟩ :: ·) ih

private theorem statements_skipLine (htail : Closes tail) (inside : List BlockKind) :
    statements {} inside (skipLine (unplaced tail)) = statements {} inside (unplaced tail) := by
  rcases htail with h | ⟨text, rfl⟩
  · rw [skipLine_eq_of_lineEnd h]
  · simp [skipLine, skipTokens, statements, Kind.isBreak]

/-- The declaration that a comment changes. -/
private theorem statements_named {kind : ParticipantKind} {k : Kind} {s b value text : Text} (hkey : k.key? ≠ none)
    (h : Trailed [.comment text] (unplaced [k, .display b, .string value]) us) (inside : List BlockKind) :
    Renamed [.declare kind, k, .display b, .string value]
      (statements {} inside (unplaced [.declare kind, k, .display b, .string value]))
      (statements {} inside (⟨(Kind.declare kind).carry s, {}⟩ :: us)) := by
  obtain ⟨key, hkey⟩ := Option.ne_none_iff_exists'.1 hkey
  have hstring : readStatement {} inside ⟨.declare kind, {}⟩ (unplaced [k, .display b, .string value]) =
      (.participant kind key (shown value), []) := readDeclaration_of_key kind hkey _
  have hfree : readStatement {} inside ⟨(Kind.declare kind).carry s, {}⟩ us =
      (.participant kind key (shown (Text.strip b)), []) := readDeclaration_named kind hkey h
  refine ⟨[], kind, key, b, value, ?_, ?_, ?_⟩
  · exact List.suffix_append [.declare kind, k] [.display b, .string value]
  · have hread := statements_of_not_break (k := .declare kind) (by simp [Kind.isBreak]) inside
      (unplaced [k, .display b, .string value])
    rw [hstring, statements_nil] at hread
    exact hread
  · rw [statements_of_not_break (by simp [Kind.isBreak, Kind.carry]), hfree, statements_nil]
    rfl

/-- Statements in front of the end of a line are read on their own, whatever the next line is.  With a comment instead
they are the same, unless the last one declares a participant and gives it a string as its name. -/
theorem statements_trailed (htail : Closes tail) (h : Trailed tail ts us) (hcut : Cut ts) (inside : List BlockKind) :
    statements {} inside us = statements {} inside ts ++
          statements {} (insideBehind inside (statements {} inside ts)) (unplaced tail) ∧
        (LineEnd tail ∨ ∀ key, ¬ EndsInName (ts.map Token.kind) (statements {} inside ts) key) ∨
      ¬ LineEnd tail ∧ Renamed (ts.map Token.kind) (statements {} inside ts) (statements {} inside us) := by
  -- a statement may take more than one token, so the induction is on how many are left
  induction hn : ts.length using Nat.strongRecOn generalizing ts us inside with
  | ind n ih =>
    subst hn
    cases h with
    | stop =>
      refine Or.inl ⟨by simp [statements_nil, insideBehind], Or.inr ?_⟩
      rintro key ⟨kind, b, value, -, hlast⟩
      rw [statements_nil] at hlast
      cases hlast
    | @token k s ts us htext hrest =>
      by_cases hbreak : k.isBreak = true
      · rw [statements_of_break hbreak, statements_of_break ((k.isBreak_carry s).trans hbreak)]
        have hsuffix : ts <:+ ⟨k, {}⟩ :: ts := List.suffix_cons _ _
        rcases ih ts.length (by simp) hrest hcut.tail inside rfl with ⟨hsame, hnone⟩ | ⟨hline, hrenamed⟩
        · refine Or.inl ⟨hsame, hnone.imp_right fun hnone key hends => hnone key ?_⟩
          exact hends.of_suffix hsuffix rfl
        · exact Or.inr ⟨hline, hrenamed.of_suffix hsuffix []⟩
      by_cases hname : LineEnd tail ∨ ∀ kind k' b value, k'.key? ≠ none →
          k :: ts.map Token.kind ≠ [.declare kind, k', .display b, .string value]
      · have hbreak' : ¬ (k.carry s).isBreak = true := fun h => hbreak ((k.isBreak_carry s).symm.trans h)
        obtain ⟨hst, hleft⟩ := readStatement_trailed htail inside htext hrest hname
        have hsuffix := readStatement_suffix {} inside ⟨k, {}⟩ ts
        have hlt : (readStatement {} inside ⟨k, {}⟩ ts).2.length < (⟨k, {}⟩ :: ts : List (Token Kind)).length :=
          Nat.lt_succ_of_le hsuffix.length_le
        have hcut' := hcut.of_suffix (hsuffix.trans (List.suffix_cons _ _))
        rw [statements_of_not_break hbreak, statements_of_not_break hbreak', hst]
        rcases hleft with hleft | ⟨hnil, hskip⟩
        · rcases ih _ hlt hleft hcut' ((readStatement {} inside ⟨k, {}⟩ ts).1.inside inside) rfl with
            ⟨hsame, hnone⟩ | ⟨hline, hrenamed⟩
          · refine Or.inl ⟨congrArg (_ :: ·) hsame, ?_⟩
            exact hname.elim Or.inl fun hname => hnone.imp_right (not_endsInName_of_read hcut hname)
          · exact Or.inr ⟨hline, hrenamed.of_suffix (hsuffix.trans (List.suffix_cons _ _)) [_]⟩
        · -- the statement took the line of `tail` with it
          refine Or.inl ⟨?_, hname.imp_right fun hname => not_endsInName_of_read hcut hname ?_⟩
          · rw [hnil, hskip, statements_skipLine htail, statements_nil]
            rfl
          · rw [hnil, statements_nil]
            rintro key ⟨_, _, _, -, hlast⟩
            cases hlast
      · simp only [not_or, not_forall, not_not] at hname
        obtain ⟨hline, kind, k', b, value, hkey, hkinds⟩ := hname
        obtain ⟨text, rfl⟩ := htail.resolve_left hline
        obtain ⟨rfl, hts⟩ := List.cons.inj hkinds
        obtain rfl : ts = unplaced [k', .display b, .string value] := hts ▸ hrest.eq_unplaced
        exact Or.inr ⟨hline, statements_named hkey hrest inside⟩

/-! ### Texts in front of other tokens -/

/-- What is read behind tokens from those that follow.  The header may stand there if there is nothing but breaks
before. -/
def later (ts : List (Token Kind)) (tail : List Kind) : List Statement :=
  if skipTokens Kind.isBreak ts = [] then document ⟨unplaced tail, {}⟩
  else statements {} (insideBehind [] (document ⟨ts, {}⟩)) (unplaced tail)

private theorem skipBreaks_trailed (h : Trailed tail ts us) :
    skipTokens Kind.isBreak ts = [] ∧
        skipTokens Kind.isBreak us = skipTokens Kind.isBreak (unplaced tail) ∨
      skipTokens Kind.isBreak ts ≠ [] ∧ Trailed tail (skipTokens Kind.isBreak ts) (skipTokens Kind.isBreak us) := by
  induction h with
  | stop => exact Or.inl ⟨rfl, rfl⟩
  | @token k s ts us htext hrest ih =>
    by_cases hk : k.isBreak = true
    · rwa [skipTokens_of_pos hk, skipTokens_of_pos (t := ⟨k.carry s, {}⟩) ((k.isBreak_carry s).trans hk)]
    · have hk' : ¬ (k.carry s).isBreak = true := fun h => hk ((k.isBreak_carry s).symm.trans h)
      rw [skipTokens_of_neg hk, skipTokens_of_neg (t := ⟨k.carry s, {}⟩) hk']
      exact Or.inr ⟨List.cons_ne_nil _ _, .token htext hrest⟩

/-- The header is passed over in both. -/
private theorem document_of_trailed (h : Trailed tail ts us) (hne : skipTokens Kind.isBreak ts ≠ []) :
    ∃ ts' us', ts' <:+ ts ∧ Trailed tail ts' us' ∧ document ⟨ts, {}⟩ = statements {} [] ts' ∧
      document ⟨us, {}⟩ = statements {} [] us' := by
  obtain ⟨hnil, -⟩ | ⟨-, hrest⟩ := skipBreaks_trailed h
  · exact absurd hnil hne
  · have hsuffix := skipTokens_suffix Kind.isBreak ts
    unfold document
    dsimp only
    generalize skipTokens Kind.isBreak ts = ts' at hne hrest hsuffix ⊢
    generalize skipTokens Kind.isBreak us = us' at hrest ⊢
    cases hrest with
    | stop => exact absurd rfl hne
    | @token k s ts' us' htext hrest =>
      cases k with
      | header => exact ⟨ts', us', (List.suffix_cons _ _).trans hsuffix, hrest, rfl, rfl⟩
      | _ => exact ⟨_, _, hsuffix, .token htext hrest, rfl, rfl⟩

/-- The statements of a text in front of the end of a line, as for `statements_trailed`. -/
theorem document_trailed (htail : Closes tail) (h : Trailed tail ts us) (hcut : Cut ts) :
    document ⟨us, {}⟩ = document ⟨ts, {}⟩ ++ later ts tail ∧
        (LineEnd tail ∨ ∀ key, ¬ EndsInName (ts.map Token.kind) (document ⟨ts, {}⟩) key) ∨
      ¬ LineEnd tail ∧ Renamed (ts.map Token.kind) (document ⟨ts, {}⟩) (document ⟨us, {}⟩) := by
  by_cases hnil : skipTokens Kind.isBreak ts = []
  · obtain ⟨-, hus⟩ := (skipBreaks_trailed h).resolve_right fun hne => hne.1 hnil
    have hts : document ⟨ts, {}⟩ = [] := by
      unfold document
      dsimp only
      rw [hnil]
      exact statements_nil []
    have htail : document ⟨us, {}⟩ = document ⟨unplaced tail, {}⟩ := by
      unfold document
      dsimp only
      rw [hus]
    rw [later, if_pos hnil, hts, htail]
    refine Or.inl ⟨rfl, Or.inr ?_⟩
    rintro key ⟨_, _, _, -, hlast⟩
    cases hlast
  · obtain ⟨ts', us', hsuffix, hrest, hts, hus⟩ := document_of_trailed h hnil
    rw [later, if_neg hnil, hts, hus]
    rcases statements_trailed htail hrest (hcut.of_suffix hsuffix) [] with ⟨hsame, hnone⟩ | ⟨hline, hrenamed⟩
    · exact Or.inl ⟨hsame, hnone.imp_right fun hnone key hends => hnone key (hends.of_suffix hsuffix rfl)⟩
    · exact Or.inr ⟨hline, hrenamed.of_suffix hsuffix []⟩

/-- Tokens are trailed by those of the next line. -/
theorem trailed_append (htail : LineEnd tail) (ks : List Kind) :
    Trailed tail (unplaced ks) (unplaced (ks ++ tail)) := by
  have hstop : tail.takeWhile (· != .newline) = [] := by
    cases tail with
    | nil => rfl
    | cons k tail =>
      rw [htail k rfl]
      rfl
  have hline : ∀ ks : List Kind, (ks ++ tail).takeWhile (· != .newline) = ks.takeWhile (· != .newline) := by
    intro ks
    rw [List.takeWhile_append, hstop, List.append_nil]
    split
    · rename_i hlength
      exact ((List.takeWhile_prefix _).eq_of_length hlength).symm
    · rfl
  induction ks with
  | nil => exact .stop
  | cons k ks ih =>
    have htext : ∀ b, (readText b (unplaced (ks ++ tail))).1 = (readText b (unplaced ks)).1 := by
      intro b
      simp only [readText, lineComment_eq, map_kind_unplaced, hline]
    have htoken := Trailed.token (k := k) (s := k.behind) (by rw [Kind.carry_behind, htext]) ih
    rwa [Kind.carry_behind] at htoken

theorem later_comment (ts : List (Token Kind)) (text : Text) : later ts [.comment text] = [] := by
  unfold later
  split
  · exact statements_nil []
  · simp [statements, Kind.isBreak]

/-- What is read behind a text does not depend on a name in it. -/
theorem later_eq {text : Text} (h : Trailed [.comment text] ts us)
    (hsaid : document ⟨us, {}⟩ = document ⟨ts, {}⟩ ∨
      Renamed (ts.map Token.kind) (document ⟨ts, {}⟩) (document ⟨us, {}⟩)) (tail : List Kind) :
    later us tail = later ts tail := by
  have hskip : skipTokens Kind.isBreak us = [] ↔ skipTokens Kind.isBreak ts = [] := by
    obtain ⟨hts, hus⟩ | ⟨hne, hrest⟩ := skipBreaks_trailed h
    · rw [hts, hus]
      simp [skipTokens, Kind.isBreak]
    · generalize skipTokens Kind.isBreak ts = ts' at hne hrest ⊢
      generalize skipTokens Kind.isBreak us = us' at hrest ⊢
      cases hrest with
      | stop => exact absurd rfl hne
      | token => simp
  have hinside : insideBehind [] (document ⟨us, {}⟩) = insideBehind [] (document ⟨ts, {}⟩) := by
    obtain hsame | ⟨before, kind, key, b, value, -, hts, hus⟩ := hsaid
    · rw [hsame]
    · rw [hts, hus, insideBehind, insideBehind, List.foldl_append, List.foldl_append]
      rfl
  simp only [later, hskip, hinside]

/-- The free text behind `as` has the quotes of the string. -/
theorem quote_mem_of_suffix {b value : Text} (hcut : Cut ts) (h : [.display b, .string value] <:+ ts.map Token.kind) :
    '"' ∈ Text.strip b ∧ '"' ∉ value := by
  obtain ⟨ks, hks⟩ := h
  obtain ⟨before, rest, rfl, -, hrest⟩ := List.map_eq_append_iff.1 hks.symm
  obtain ⟨⟨k, p⟩, rest', rfl, rfl, hrest'⟩ := List.map_eq_cons_iff.1 hrest
  obtain ⟨⟨k, q⟩, rfl, rfl⟩ := List.map_eq_singleton_iff.1 hrest'
  have hcut := hcut.of_suffix (List.suffix_append before _)
  constructor
  · have hquote := quote_mem_readText hcut rfl (List.suffix_refl [Kind.string value])
    have hfree : (readText b [⟨.string value, q⟩]).1 = Text.strip b := congrArg Text.strip (List.take_length (l := b))
    rwa [hfree] at hquote
  · exact quote_not_mem_of_suffix hcut (List.suffix_cons _ _)

end

end DiagramText.Sequence

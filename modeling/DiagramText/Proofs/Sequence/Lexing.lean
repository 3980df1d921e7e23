import DiagramText.Sequence.Writer
import DiagramText.Proofs.Lexing
import DiagramText.Proofs.Text.Parts

/-!
# Lexing sequence text

The rule of the dialect is local to lines (`rule_lineLocal`), and names, arrows and keywords are cut back into their
tokens.  `ruleCase` tells what the rule finds at a character, and how much of the text that takes up.
-/

namespace DiagramText.Sequence

/-! ### Arrows -/

private theorem arrow_line (s : Text) :
    MessageType.all.find? (fun type => type.symbol.isPrefixOf (Text.firstLine s)) =
      MessageType.all.find? fun type => type.symbol.isPrefixOf s := by
  have hbreak : ∀ type : MessageType, '\n' ∉ type.symbol := by
    intro type
    cases type <;> decide
  congr 1
  funext type
  exact Text.isPrefixOf_firstLine (hbreak type) s

private theorem arrow_word {c : Char} (hc : c ≠ '-') (r : Text) :
    MessageType.all.find? (fun type => type.symbol.isPrefixOf (c :: r)) = none := by
  rw [List.find?_eq_none]
  intro type _
  have hstart : ∃ t, type.symbol = '-' :: t := by
    cases type <;> exact ⟨_, rfl⟩
  obtain ⟨t, ht⟩ := hstart
  rw [ht, List.isPrefixOf_cons_cons]
  simp [Ne.symm hc]

/-- An arrow is read exactly unless another head follows. -/
private theorem arrow_symbol (type : MessageType) {rest : Text} (hr : ∀ c ∈ rest.head?, c ≠ '>') :
    MessageType.all.find? (fun t => t.symbol.isPrefixOf (type.symbol ++ rest)) = some type := by
  cases rest with
  | nil => cases type <;> decide
  | cons c rest =>
    have hc : ['>'].isPrefixOf (c :: rest) = false := by
      rw [List.isPrefixOf_cons_cons]
      simp [Ne.symm (hr c rfl)]
    cases type <;> simp [MessageType.all, MessageType.symbol, hc]

/-! ### The rule looks at one line only -/

theorem rule_lineLocal : LineLocal rule .newline where
  at_break _ := rfl
  line c r hc := by
    have harrow := arrow_line (c :: r)
    rw [Text.firstLine_cons hc] at harrow
    have hword : Text.firstLine ((Text.firstLine r).drop (r.takeWhile Text.isWordChar).length) =
        Text.firstLine (r.drop (r.takeWhile Text.isWordChar).length) := by
      have hbreak : '\n' ∉ r.take (r.takeWhile Text.isWordChar).length := by
        rw [Text.take_length_takeWhile]
        intro h
        exact absurd (List.all_eq_true.1 List.all_takeWhile _ h) (by decide)
      rw [← Text.firstLine_drop hbreak, Text.firstLine_firstLine]
    unfold rule
    simp only [harrow, Text.quoted_firstLine, Text.firstLine_firstLine, Text.takeWhile_firstLine (p := Text.isWordChar)
      (by decide), hword, Text.head?_firstLine (show '%' ≠ '\n' by decide)]
  more_le c r := by
    unfold rule
    split
    · exact Nat.zero_le _
    split
    · exact Nat.zero_le _
    split
    · exact Nat.zero_le _
    split
    · exact Text.length_firstLine_le r
    split
    · rename_i type h
      have hprefixed := List.find?_some h
      rw [List.isPrefixOf_iff_prefix] at hprefixed
      have hlen := hprefixed.length_le
      rw [List.length_cons] at hlen
      show type.symbol.length - 1 ≤ r.length
      omega
    split
    · exact Text.quoted_length_le r
    split
    · exact (List.takeWhile_prefix _).length_le
    · exact Nat.zero_le _

/-! ### Words, names and arrows -/

/-- A word is cut off where no word character follows. -/
theorem kinds_word {w rest : Text} (hw : Text.isWord w = true) (hr : ∀ c ∈ rest.head?, Text.isWordChar c = false) :
    kinds rule (w ++ rest) = Kind.ofWord w (Text.firstLine rest) :: kinds rule rest := by
  cases w with
  | nil => cases hw
  | cons c w =>
    simp only [Text.isWord, Bool.and_eq_true, List.all_eq_true] at hw
    have hne : ∀ d, Text.isWordStart d = false → c ≠ d := by
      rintro d hd rfl
      rw [hw.1] at hd
      cases hd
    apply kinds_found (Text.isGap_eq_false_of_isWordStart hw.1)
    unfold rule
    rw [if_neg (hne '\n' (by decide)), if_neg (hne ':' (by decide)), if_neg (hne ',' (by decide)),
      if_neg (fun h => hne '%' (by decide) h.1), arrow_word (hne '-' (by decide))]
    dsimp only
    rw [if_neg (hne '"' (by decide)), if_pos hw.1, Text.takeWhile_append_exact hw.2 hr, List.drop_left]

theorem kinds_last_word {w : Text} (hw : Text.isWord w = true) : kinds rule w = [Kind.ofWord w []] := by
  have h := kinds_word hw (show ∀ c ∈ ([] : Text).head?, Text.isWordChar c = false by simp)
  rwa [List.append_nil, Text.firstLine_nil, kinds_nil] at h

private theorem ofWord_of_not_mem {w : Text} (h : w ∉ reserved) (behind : Text) : Kind.ofWord w behind = .word w := by
  unfold Kind.ofWord
  rw [List.find?_eq_none.2]
  · rfl
  · intro k hk
    rw [decide_eq_true_eq]
    rintro rfl
    refine h ?_
    have htexts : (Kind.reservedTokens behind).map Kind.text = reserved := rfl
    rw [← htexts]
    exact List.mem_map_of_mem hk

/-- The token of a participant that is referred to. -/
def keyKind (key : Text) : Kind := if Text.isWord key && !reserved.contains key then .word key else .string key

theorem kinds_string {s : Text} (h : Text.isQuotable s = true) (rest : Text) :
    kinds rule (Text.quote s ++ rest) = .string s :: kinds rule rest := by
  rw [Text.isQuotable_iff] at h
  have hfound : kinds rule ('"' :: ((s ++ ['"']) ++ rest)) = .string s :: kinds rule rest := by
    apply kinds_found (by decide)
    rw [List.append_assoc]
    unfold rule
    rw [if_neg (by decide), if_neg (by decide), if_neg (by decide), if_neg (by simp), arrow_word (by decide)]
    simp [Text.quoted_append h.1 h.2]
  simpa [Text.quote] using hfound

theorem kinds_key {key rest : Text} (h : Text.isQuotable key = true)
    (hr : ∀ c ∈ rest.head?, Text.isWordChar c = false) :
    kinds rule (formatKey key ++ rest) = keyKind key :: kinds rule rest := by
  unfold formatKey keyKind
  split
  · rename_i hbare
    simp only [Bool.and_eq_true, Bool.not_eq_true', List.contains_eq_mem, decide_eq_false_iff_not] at hbare
    rw [kinds_word hbare.1 hr, ofWord_of_not_mem hbare.2]
  · exact kinds_string h rest

/-- A reference begins with a letter, an underscore or a quote. -/
theorem head?_formatKey (key : Text) : ∃ c t, formatKey key = c :: t ∧ c ≠ '>' := by
  unfold formatKey
  split
  · rename_i hbare
    cases key with
    | nil => cases hbare
    | cons c r =>
      simp only [Text.isWord, Bool.and_eq_true] at hbare
      refine ⟨c, r, rfl, ?_⟩
      rintro rfl
      exact absurd hbare.1.1 (by decide)
  · exact ⟨'"', _, rfl, by decide⟩

theorem kinds_arrow (type : MessageType) {rest : Text} (hr : ∀ c ∈ rest.head?, c ≠ '>') :
    kinds rule (type.symbol ++ rest) = .arrow type :: kinds rule rest := by
  have hsymbol := arrow_symbol type hr
  have hstart : ∃ t, type.symbol = '-' :: t := by
    cases type <;> exact ⟨_, rfl⟩
  obtain ⟨t, ht⟩ := hstart
  rw [ht, List.cons_append] at hsymbol ⊢
  apply kinds_found (by decide)
  unfold rule
  rw [if_neg (by decide), if_neg (by decide), if_neg (by decide), if_neg (by simp), hsymbol]
  simp [ht]

theorem kinds_colon (rest : Text) : kinds rule (':' :: rest) = .colon (Text.firstLine rest) :: kinds rule rest :=
  kinds_found (w := []) (by decide) rfl

theorem kinds_comma (rest : Text) : kinds rule (',' :: rest) = .comma :: kinds rule rest :=
  kinds_found (w := []) (by decide) rfl

theorem kinds_space (rest : Text) : kinds rule (' ' :: rest) = kinds rule rest := kinds_gap rule (by decide) rest

/-! ### Token by token -/

/-- A token that is neither a line break nor a comment nor a string and has `rest` behind it. -/
def Kind.Plain (rest : Text) : Kind → Prop
  | newline | comment _ | string _ => False
  | word name => Text.isWord name = true
  | colon behind | opening _ behind | branch behind | display behind => behind = Text.firstLine rest
  | _ => True

/-- What the rule finds at a character `c` with the text `r` behind it. -/
inductive RuleCase (c : Char) (r : Text) : Found Kind → Prop
  | newline (hc : c = '\n') : RuleCase c r ⟨some .newline, 0⟩
  | comment (hc : c = '%') (hr : r.head? = some '%') :
    RuleCase c r ⟨some (.comment (c :: Text.firstLine r)), (Text.firstLine r).length⟩
  | string (hc : c = '"') : RuleCase c r ⟨some (.string (Text.quoted r).1), (Text.quoted r).2⟩
  | plain {w rest : Text} {k : Kind} (hr : r = w ++ rest) (hw : ∀ d ∈ c :: w, d ≠ '"' ∧ d ≠ '%')
    (hk : k.Plain rest) : RuleCase c r ⟨some k, w.length⟩
  | nothing (hc : c ≠ '"') (hcomment : ¬ (c = '%' ∧ r.head? = some '%')) : RuleCase c r ⟨none, 0⟩

private theorem plain_ofWord {w : Text} (hw : Text.isWord w = true) (rest : Text) :
    (Kind.ofWord w (Text.firstLine rest)).Plain rest := by
  have hreserved : ∀ k ∈ Kind.reservedTokens (Text.firstLine rest), k.Plain rest := by
    simp [Kind.reservedTokens, Kind.Plain]
  unfold Kind.ofWord
  cases h : (Kind.reservedTokens (Text.firstLine rest)).find? (·.text = w) with
  | none => exact hw
  | some k => exact hreserved k (List.mem_of_find?_eq_some h)

theorem ruleCase (c : Char) (r : Text) : RuleCase c r (rule c r) := by
  have hone : ∀ {k : Kind}, c ≠ '"' ∧ c ≠ '%' → k.Plain r → RuleCase c r ⟨some k, 0⟩ :=
    fun hc hk => .plain (w := []) (List.nil_append r).symm (by simpa using hc) hk
  unfold rule
  split
  · rename_i hc
    exact .newline hc
  split
  · rename_i _ hc
    subst hc
    exact hone (by decide) rfl
  split
  · rename_i _ _ hc
    subst hc
    exact hone (by decide) trivial
  split
  · rename_i hc
    exact .comment hc.1 hc.2
  rename_i hcomment
  split
  · rename_i type h
    have hprefixed := List.find?_some h
    rw [List.isPrefixOf_iff_prefix] at hprefixed
    obtain ⟨rest, hrest⟩ := hprefixed
    have hsymbol : ∃ w, type.symbol = '-' :: w ∧ ∀ d ∈ '-' :: w, d ≠ '"' ∧ d ≠ '%' := by
      cases type <;> exact ⟨_, rfl, Text.forall_of_all (by decide)⟩
    obtain ⟨w, hw, hplain⟩ := hsymbol
    rw [hw, List.cons_append, List.cons_eq_cons] at hrest
    obtain ⟨rfl, rfl⟩ := hrest
    rw [hw]
    exact .plain rfl hplain trivial
  split
  · rename_i hc
    exact .string hc
  split
  · rename_i hquote hstart
    have hword : Text.isWord (c :: r.takeWhile Text.isWordChar) = true := by
      simp [Text.isWord, hstart]
    have hsplit : r = r.takeWhile Text.isWordChar ++ r.drop (r.takeWhile Text.isWordChar).length := by
      rw [Text.drop_length_takeWhile, List.takeWhile_append_dropWhile]
    refine .plain hsplit ?_ (plain_ofWord hword _)
    have hchars := (Text.isWord_iff.1 hword).2.1
    intro d hd
    refine ⟨?_, ?_⟩ <;> rintro rfl <;> exact absurd (hchars _ hd) (by decide)
  · rename_i hquote _
    exact .nothing hquote hcomment

theorem not_newline_of_mem_kinds {s : Text} (hs : '\n' ∉ s) : Kind.newline ∉ kinds rule s := by
  intro h
  obtain ⟨c, r, hsuffix, -, hk⟩ := exists_rule_of_mem_kinds h
  have hcase := ruleCase c r
  generalize rule c r = found at hk hcase
  cases hcase with
  | newline hc => exact hs (hc ▸ hsuffix.subset List.mem_cons_self)
  | plain hr hw hplain =>
    cases hk
    exact hplain
  | _ => cases hk

theorem not_string_of_mem_kinds {s : Text} (hs : '"' ∉ s) (value : Text) : Kind.string value ∉ kinds rule s := by
  intro h
  obtain ⟨c, r, hsuffix, -, hk⟩ := exists_rule_of_mem_kinds h
  have hcase := ruleCase c r
  generalize rule c r = found at hk hcase
  cases hcase with
  | string hc => exact hs (hc ▸ hsuffix.subset List.mem_cons_self)
  | plain hr hw hplain =>
    cases hk
    exact hplain
  | _ => cases hk

end DiagramText.Sequence

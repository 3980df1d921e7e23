import DiagramText.Flowchart.Token
import DiagramText.Proofs.Flowchart.Links
import DiagramText.Proofs.Flowchart.Shapes
import DiagramText.Proofs.Lexing

/-!
# Lexing flowchart text

The rule of the dialect is local to lines (`rule_lineLocal`).  A word that is set off is cut into its own token
(`kinds_word`, `kinds_reserved`), the only one if nothing else is there (`tokenize_word`), and a word with a shape
behind it is one token with what is read of the shape (`kinds_node`).
-/

namespace DiagramText.Flowchart

/-! ### The rule looks at one line only -/

private theorem take_firstLine {s : Text} {n : Nat} (h : n ≤ (Text.firstLine s).length) :
    (Text.firstLine s).take n = s.take n := by
  obtain ⟨t, ht⟩ : Text.firstLine s <+: s := List.takeWhile_prefix _
  conv => rhs; rw [← ht, List.take_append_of_le_length h]

private theorem drop_takeWhile_firstLine {p : Char → Bool} (hp : p '\n' = false) (s : Text) :
    (Text.firstLine s).drop (s.takeWhile p).length = Text.firstLine (s.drop (s.takeWhile p).length) := by
  rw [Text.firstLine_drop]
  rw [Text.take_length_takeWhile]
  intro h
  rw [List.all_eq_true.1 List.all_takeWhile _ h] at hp
  cases hp

private theorem wordRule_firstLine (w behind : Text) : wordRule w (Text.firstLine behind) = wordRule w behind := by
  unfold wordRule
  split
  · rfl
  · dsimp only
    rw [Text.takeWhile_firstLine (by decide), drop_takeWhile_firstLine (by decide), readShape_firstLine]

private theorem wordRule_more (w behind : Text) : (wordRule w behind).more + 1 ≤ w.length + behind.length ∨
    (wordRule w behind).more = 0 := by
  unfold wordRule
  split
  · simp only
    omega
  · dsimp only
    split
    · rename_i f hf
      obtain ⟨-, hlen⟩ := readShape_length hf
      have hfirst := Text.length_firstLine_le (behind.drop (behind.takeWhile Text.isSpace).length)
      have hgap : (behind.takeWhile Text.isSpace).length ≤ behind.length := (List.takeWhile_prefix _).length_le
      rw [List.length_drop] at hfirst
      simp only
      omega
    · simp only
      omega

theorem rule_lineLocal : LineLocal rule .newline where
  at_break _ := rfl
  line c r hc := by
    have hlink : readLink (c :: Text.firstLine r) = readLink (c :: r) := by
      rw [← Text.firstLine_cons hc, readLink_firstLine]
    have htake := Text.takeWhile_firstLine (p := Text.isWordChar) (by decide) r
    have hdrop := drop_takeWhile_firstLine (p := Text.isWordChar) (by decide) r
    unfold rule
    simp only [hlink, Text.firstLine_firstLine, htake, hdrop, wordRule_firstLine,
      Text.head?_firstLine (show '%' ≠ '\n' by decide)]
    cases h : readLink (c :: r) with
    | none => rfl
    | some f =>
      have hlen : f.length ≤ (Text.firstLine (c :: r)).length := by
        rw [← readLink_firstLine] at h
        exact (readLink_length h).2
      have htaken := take_firstLine hlen
      rw [Text.firstLine_cons hc] at htaken
      simp only [htaken]
  more_le c r := by
    unfold rule
    split
    · simp
    split
    · exact Text.length_firstLine_le r
    split
    · rename_i f h
      have := (readLink_length h).2
      rw [List.length_cons] at this
      show f.length - 1 ≤ r.length
      omega
    split
    · have hrest : (r.takeWhile Text.isWordChar).length ≤ r.length := (List.takeWhile_prefix _).length_le
      have hmore := wordRule_more (c :: r.takeWhile Text.isWordChar) (r.drop (r.takeWhile Text.isWordChar).length)
      rw [List.length_cons, List.length_drop] at hmore
      dsimp only
      omega
    · simp

/-! ### Words -/

/-- Every way to read a link begins with one of the characters of lines. -/
private theorem readLink_eq_none {c : Char} {r : Text} (hc : c ∉ ['-', '=', '~']) : readLink (c :: r) = none := by
  cases h : readLink (c :: r) with
  | none => rfl
  | some f =>
    refine absurd ?_ hc
    have hsymbol : ∀ type : LinkType, ∀ t, type.symbol ++ t <+: c :: r → c ∈ ['-', '=', '~'] := by
      intro type t ht
      cases type <;> rw [← (List.cons_prefix_cons.1 ht).1] <;> decide
    obtain ⟨type, h | h | h⟩ := readLink_cases h
    · obtain ⟨gap, label, -, -, -, hs, -⟩ := readPiped_eq_some_iff.1 h
      exact hsymbol type _ hs
    · obtain ⟨form, label, hform, -, -, -, hs, -⟩ := readInline_eq_some_iff.1 h
      cases type <;> cases hform <;> rw [← (List.cons_prefix_cons.1 hs).1] <;> decide
    · obtain ⟨hs, -⟩ := readBare_eq_some_iff.1 h
      exact hsymbol type [] (by rwa [List.append_nil])

private theorem readLink_word {c : Char} {r : Text} (hc : Text.isWordStart c = true) : readLink (c :: r) = none := by
  apply readLink_eq_none
  intro hline
  simp only [List.mem_cons, List.not_mem_nil, or_false] at hline
  rcases hline with rfl | rfl | rfl <;> exact absurd hc (by decide)

theorem isWordChar_of_isBracket {c : Char} (h : isBracket c = true) :
    Text.isWordChar c = false ∧ Text.isSpace c = false := by
  have hall : ∀ y ∈ "[]()\x7b\x7d<>/\\".toList, Text.isWordChar y = false ∧ Text.isSpace y = false :=
    Text.forall_of_all (by decide)
  exact hall c (List.contains_iff_mem.1 h)

theorem isBracket_of_isWordStart {c : Char} (h : Text.isWordStart c = true) : isBracket c = false := by
  cases hb : isBracket c with
  | false => rfl
  | true =>
    have hw := (isWordChar_of_isBracket hb).1
    rw [Text.isWordChar_of_isWordStart h] at hw
    cases hw

/-- Brackets by themselves are no tokens. -/
theorem kinds_brackets {s : Text} (h : ∀ c ∈ s, isBracket c = true) : kinds rule s = [] := by
  induction s with
  | nil => exact kinds_nil rule
  | cons c s ih =>
    have hall : ∀ y ∈ "[]()\x7b\x7d<>/\\".toList, Text.isGap y = false ∧ y ≠ '\n' ∧ y ≠ '%' ∧ y ∉ ['-', '=', '~'] ∧
        Text.isWordStart y = false :=
      Text.forall_of_all (by decide)
    obtain ⟨hgap, hbreak, hpercent, hline, hword⟩ := hall c (List.contains_iff_mem.1 (h c List.mem_cons_self))
    have hrule : rule c s = ⟨none, 0⟩ := by
      unfold rule
      rw [if_neg hbreak, if_neg fun h => hpercent h.1, readLink_eq_none hline]
      simp only [hword, Bool.false_eq_true, if_false]
    rw [kinds_cons rule hgap, hrule]
    exact ih fun d hd => h d (List.mem_cons_of_mem c hd)

private theorem readShape_eq_none {s : Text} (h : ∀ c ∈ s.head?, isBracket c = false) : readShape s = none := by
  have hnil : Shape.candidates s = [] := by
    rw [List.eq_nil_iff_forall_not_mem]
    intro sh hsh
    obtain ⟨t, ht⟩ := (Shape.mem_candidates.1 hsh).1
    obtain ⟨c, u, hcu⟩ := List.exists_cons_of_ne_nil sh.opener_ne_nil
    have hmem : c ∈ sh.opener := by
      rw [hcu]
      exact List.mem_cons_self
    have hc := Shape.isBracket_of_mem_opener hmem
    rw [h c (by rw [← ht, hcu]; rfl)] at hc
    cases hc
  unfold readShape
  rw [hnil]

/-- A word that is set off is read by `wordRule`. -/
private theorem rule_word {c : Char} {w rest : Text} (hw : Text.isWord (c :: w) = true)
    (hr : ∀ x ∈ rest.head?, Text.isWordChar x = false) : rule c (w ++ rest) = wordRule (c :: w) rest := by
  simp only [Text.isWord, Bool.and_eq_true, List.all_eq_true] at hw
  have hne : ∀ d, Text.isWordStart d = false → c ≠ d := fun d hd e => by simp [e, hd] at hw
  unfold rule
  rw [if_neg (hne '\n' (by decide)), if_neg fun h => hne '%' (by decide) h.1, readLink_word hw.1]
  simp only [hw.1, if_true]
  rw [Text.takeWhile_append_exact hw.2 hr, List.drop_left]

private theorem isGap_word {c : Char} {w : Text} (hw : Text.isWord (c :: w) = true) : Text.isGap c = false := by
  simp only [Text.isWord, Bool.and_eq_true] at hw
  exact Text.isGap_eq_false_of_isWordStart hw.1

theorem kinds_reserved {w rest : Text} {k : Kind} (hw : Text.isWord w = true) (hk : Kind.ofReserved? w = some k)
    (hr : ∀ x ∈ rest.head?, Text.isWordChar x = false) : kinds rule (w ++ rest) = k :: kinds rule rest := by
  cases w with
  | nil => cases hw
  | cons c w =>
    apply kinds_found (isGap_word hw)
    rw [rule_word hw hr, wordRule, hk]
    simp

/-- A word without a shape is a token by itself. -/
theorem kinds_word {w rest : Text} (hw : Text.isWord w = true) (hk : Kind.ofReserved? w = none)
    (hr : ∀ x ∈ rest.head?, Text.isSpace x = true)
    (hs : ∀ x ∈ (rest.dropWhile Text.isSpace).head?, isBracket x = false) :
    kinds rule (w ++ rest) = .word w :: kinds rule rest := by
  cases w with
  | nil => cases hw
  | cons c w =>
    have hset : ∀ x ∈ rest.head?, Text.isWordChar x = false := by
      intro x hx
      have hgap : Text.isGap x = true := by
        simp [Text.isGap, hr x hx]
      exact Text.isWordChar_eq_false_of_isBlank (Text.isBlank_of_isGap hgap)
    apply kinds_found (isGap_word hw)
    rw [rule_word hw hset, wordRule, hk]
    dsimp only
    rw [Text.drop_length_takeWhile, readShape_eq_none hs]
    simp

/-- A word by itself is one token, at its beginning. -/
theorem tokenize_word {w : Text} (hw : Text.isWord w = true) (hk : Kind.ofReserved? w = none) :
    tokenize rule w = ⟨[⟨.word w, {}⟩], Place.after {} w⟩ := by
  cases w with
  | nil => cases hw
  | cons c w =>
    have hrule : rule.skippingGaps c w = ⟨some (.word (c :: w)), w.length⟩ := by
      have hword : rule c (w ++ []) = wordRule (c :: w) [] := rule_word hw (by simp)
      rw [List.append_nil, wordRule, hk] at hword
      rw [Rule.skippingGaps, if_neg (by simp [isGap_word hw]), hword]
      rfl
    have hrest : (Cursor.advance ⟨c :: w, 0, {}⟩ (w.length + 1)).rest = [] := by
      rw [Cursor.rest_advance]
      exact List.drop_length
    rw [tokenize, tokensFrom]
    simp only [hrule]
    rw [tokensFrom, hrest]

/-- A word and the shape behind it are one token. -/
theorem kinds_node {w rest : Text} {f : Shaped} (hw : Text.isWord w = true) (hk : Kind.ofReserved? w = none)
    (hf : readShape rest = some f) :
    kinds rule (w ++ rest) = .node w f.shape f.label :: kinds rule (rest.drop f.length) := by
  cases w with
  | nil => cases hw
  | cons c w =>
    have hbracket : ∀ x ∈ rest.head?, isBracket x = true := by
      intro x hx
      cases h : isBracket x with
      | true => rfl
      | false =>
        rw [readShape_eq_none] at hf
        · cases hf
        · intro y hy
          rw [hx] at hy
          cases hy
          exact h
    have hgap : rest.takeWhile Text.isSpace = [] := by
      cases rest with
      | nil => rfl
      | cons x rest => rw [List.takeWhile_cons, if_neg (by simp [isWordChar_of_isBracket (hbracket x rfl)])]
    have hlen := (readShape_length hf).1
    have hpos := List.length_pos_iff.2 f.shape.opener_ne_nil
    rw [List.cons_append, kinds_cons rule (isGap_word hw),
      rule_word hw fun x hx => (isWordChar_of_isBracket (hbracket x hx)).1, wordRule, hk]
    dsimp only
    rw [hgap, List.length_nil, List.drop_zero, hf]
    have hmore : (c :: w).length + 0 + f.length - 1 = w.length + f.length := by
      rw [List.length_cons]
      omega
    simp only [hmore, Option.toList_some, List.cons_append, List.nil_append, List.drop_append]
    rw [List.drop_eq_nil_of_le (by omega), List.nil_append, Nat.add_sub_cancel_left]

end DiagramText.Flowchart

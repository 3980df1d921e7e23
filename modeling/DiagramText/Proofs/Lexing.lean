import DiagramText.Proofs.Text.Lines
import DiagramText.Token

/-!
# Lexing without places

`kinds` cuts a text into tokens and forgets where they begin; it is what `tokenize` finds (`map_kind_tokenize`).  A rule
that looks at no more than the rest of its line is `LineLocal`; the tokens of a text are then those of its lines, with
a line break between two of them (`kinds_unlines`).
-/

namespace DiagramText

variable {κ : Type}

/-- The kinds of the tokens of a text, without their places. -/
def kinds (rule : Rule κ) (s : Text) : List κ :=
  match s with
  | [] => []
  | c :: r =>
    let found := rule.skippingGaps c r
    found.kind.toList ++ kinds rule (r.drop found.more)
termination_by s.length
decreasing_by
  rw [List.length_drop, List.length_cons]
  omega

@[simp] theorem kinds_nil (rule : Rule κ) : kinds rule [] = [] := by rw [kinds]

theorem kinds_gap {c : Char} (rule : Rule κ) (hc : Text.isGap c = true) (r : Text) :
    kinds rule (c :: r) = kinds rule r := by
  rw [kinds]
  simp [Rule.skippingGaps, hc]

theorem kinds_cons {c : Char} (rule : Rule κ) (hc : Text.isGap c = false) (r : Text) :
    kinds rule (c :: r) = (rule c r).kind.toList ++ kinds rule (r.drop (rule c r).more) := by
  rw [kinds]
  simp [Rule.skippingGaps, hc]

/-- A rule that takes up exactly `w` behind `c` begins with its token and goes on behind `w`. -/
theorem kinds_found {c : Char} {rule : Rule κ} {w rest : Text} {k : κ} (hc : Text.isGap c = false)
    (h : rule c (w ++ rest) = ⟨some k, w.length⟩) : kinds rule (c :: (w ++ rest)) = k :: kinds rule rest := by
  rw [kinds_cons rule hc, h]
  simp

theorem kinds_gaps {g : Text} (rule : Rule κ) (hg : ∀ c ∈ g, Text.isGap c = true) (r : Text) :
    kinds rule (g ++ r) = kinds rule r := by
  induction g with
  | nil => rfl
  | cons c g ih =>
    rw [List.cons_append, kinds_gap rule (hg c (by simp)), ih fun d hd => hg d (by simp [hd])]

theorem kinds_indent (rule : Rule κ) (size : Int) (depth : Nat) (r : Text) :
    kinds rule (Text.indent size depth ++ r) = kinds rule r := by
  apply kinds_gaps
  intro c hc
  rw [(List.mem_replicate.1 hc).2]
  rfl

private theorem map_kind_tokensFrom (rule : Rule κ) (cur : Cursor) :
    (tokensFrom rule.skippingGaps cur).map Token.kind = kinds rule cur.rest := by
  fun_induction tokensFrom rule.skippingGaps cur with
  | case1 cur h => rw [h, kinds_nil]; rfl
  | case2 cur c r h found tail k hk ih =>
    rw [h, kinds, List.map_cons, ih, Cursor.rest_advance, h, List.drop_succ_cons]
    simp only [found] at hk
    rw [hk]
    rfl
  | case3 cur c r h found tail hk ih =>
    rw [h, kinds, ih, Cursor.rest_advance, h, List.drop_succ_cons]
    simp only [found] at hk
    rw [hk]
    rfl

theorem map_kind_tokenize (rule : Rule κ) (s : Text) : (tokenize rule s).tokens.map Token.kind = kinds rule s :=
  map_kind_tokensFrom rule ⟨s, 0, {}⟩

/-- Every token is what the rule finds at some character of the text. -/
theorem exists_rule_of_mem_kinds {rule : Rule κ} {s : Text} {k : κ} (h : k ∈ kinds rule s) :
    ∃ c r, (c :: r) <:+ s ∧ Text.isGap c = false ∧ (rule c r).kind = some k := by
  fun_induction kinds rule s with
  | case1 => simp at h
  | case2 c r found ih =>
    rcases List.mem_append.1 h with h | h
    · refine ⟨c, r, List.suffix_refl _, ?_⟩
      simp only [found, Rule.skippingGaps] at h
      cases hc : Text.isGap c with
      | true => simp [hc] at h
      | false => simpa [hc] using h
    · obtain ⟨c', r', hs, hk⟩ := ih h
      exact ⟨c', r', hs.trans ((List.drop_suffix _ _).trans (List.suffix_cons c r)), hk⟩

/-- The first token of a text is what the rule finds at some character, and the others are those of the text behind
it. -/
theorem exists_rule_of_kinds_eq_cons {rule : Rule κ} {s : Text} {k : κ} {ks : List κ} (h : kinds rule s = k :: ks) :
    ∃ c r, (c :: r) <:+ s ∧ Text.isGap c = false ∧ (rule c r).kind = some k ∧
      ks = kinds rule (r.drop (rule c r).more) := by
  fun_induction kinds rule s with
  | case1 => cases h
  | case2 c r found ih =>
    cases hc : Text.isGap c with
    | true =>
      have hfound : found = ⟨none, 0⟩ := by simp [found, Rule.skippingGaps, hc]
      rw [hfound] at h ih
      obtain ⟨c', r', hs, hrest⟩ := ih h
      exact ⟨c', r', hs.trans ((List.drop_suffix _ _).trans (List.suffix_cons c r)), hrest⟩
    | false =>
      have hfound : found = rule c r := by simp [found, Rule.skippingGaps, hc]
      rw [hfound] at h ih
      cases hk : (rule c r).kind with
      | none =>
        rw [hk] at h
        obtain ⟨c', r', hs, hrest⟩ := ih h
        exact ⟨c', r', hs.trans ((List.drop_suffix _ _).trans (List.suffix_cons c r)), hrest⟩
      | some k' =>
        rw [hk] at h
        injection h with hk' hks
        exact ⟨c, r, List.suffix_refl _, hc, by rw [hk, hk'], hks.symm⟩

/-! ### Lines -/

/-- A rule that looks at no more than the rest of its line, and finds `newline` at every line break. -/
structure LineLocal (rule : Rule κ) (newline : κ) : Prop where
  at_break : ∀ r, rule '\n' r = ⟨some newline, 0⟩
  line : ∀ c r, c ≠ '\n' → rule c r = rule c (Text.firstLine r)
  more_le : ∀ c r, (rule c r).more ≤ r.length

namespace LineLocal

variable {rule : Rule κ} {newline : κ}

/-- What the rule finds in front of a line break does not depend on what follows it. -/
theorem skippingGaps_append_break (h : LineLocal rule newline) (c : Char) (r s : Text) :
    rule.skippingGaps c (r ++ '\n' :: s) = rule.skippingGaps c r := by
  have hrule : rule c (r ++ '\n' :: s) = rule c r := by
    by_cases hc : c = '\n'
    · rw [hc, h.at_break, h.at_break]
    · by_cases hr : '\n' ∈ r
      · rw [h.line c _ hc, Text.firstLine_append_of_mem hr, ← h.line c r hc]
      · rw [h.line c _ hc, Text.firstLine_append_break hr]
  rw [Rule.skippingGaps, Rule.skippingGaps, hrule]

theorem skippingGaps_more_le (h : LineLocal rule newline) (c : Char) (r : Text) :
    (rule.skippingGaps c r).more ≤ r.length := by
  unfold Rule.skippingGaps
  split
  · exact Nat.zero_le _
  · exact h.more_le c r

/-- The tokens in front of a line break are those of the text alone, whatever follows. -/
theorem kinds_append_break (h : LineLocal rule newline) (r s : Text) :
    kinds rule (r ++ '\n' :: s) = kinds rule r ++ newline :: kinds rule s := by
  fun_induction kinds rule r with
  | case1 =>
    rw [List.nil_append, kinds_cons rule (by decide), h.at_break]
    rfl
  | case2 c r found ih =>
    have hmore : found.more ≤ r.length := h.skippingGaps_more_le c r
    rw [List.cons_append, kinds, h.skippingGaps_append_break, List.drop_append_of_le_length hmore, ih,
      List.append_assoc]

/-- The tokens of a text are those of its lines, with a line break between two of them. -/
theorem kinds_unlines (h : LineLocal rule newline) {l : Text} {ls : List Text} (hl : ∀ x ∈ l :: ls, '\n' ∉ x) :
    kinds rule (Text.unlines (l :: ls)) = kinds rule l ++ ls.flatMap fun x => newline :: kinds rule x := by
  induction ls generalizing l with
  | nil => simp [Text.unlines]
  | cons m ls ih =>
    have hm : Text.unlines (l :: m :: ls) = l ++ '\n' :: Text.unlines (m :: ls) := by
      simp [Text.unlines, List.intercalate]
    rw [hm, h.kinds_append_break, ih fun x hx => hl x (by simp [List.mem_cons.1 hx])]
    rfl

end LineLocal

/-! ### Places -/

/-- The token at another place. -/
def Token.move (f : Place → Place) (t : Token κ) : Token κ := ⟨t.kind, f t.place⟩

/-- Tokens of the given kinds, all at the first place. -/
def unplaced (ks : List κ) : List (Token κ) := ks.map fun k => ⟨k, {}⟩

@[simp] theorem unplaced_nil : unplaced ([] : List κ) = [] := rfl

@[simp] theorem unplaced_cons (k : κ) (ks : List κ) : unplaced (k :: ks) = ⟨k, {}⟩ :: unplaced ks := rfl

theorem startOf_unplaced (ks : List κ) : startOf {} (unplaced ks) = {} := by cases ks <;> rfl

@[simp] theorem unplaced_append (ks ks' : List κ) : unplaced (ks ++ ks') = unplaced ks ++ unplaced ks' :=
  List.map_append

/-- Tokens that are moved to the first place are known by their kinds. -/
theorem map_move_eq_unplaced (ts : List (Token κ)) :
    ts.map (Token.move fun _ => {}) = unplaced (ts.map Token.kind) := by
  rw [unplaced, List.map_map]
  rfl

end DiagramText

import DiagramText.Proofs.Er.Lexing
import DiagramText.Proofs.Flowchart.Lexing
import DiagramText.Proofs.Placing
import DiagramText.Proofs.Sequence.Lexing
import Mathlib.Data.List.Induction

/-!
# What tokens take up

A token takes up a stretch of the text.  `stretchesFrom` goes through a text as `tokenize` does and keeps these
stretches: a token stands where its stretch begins (`tokens_tokenize`), and where one stretch ends the next has not
begun (`pairwise_stretchesFrom`).  If a rule looks at one line only and finds what is written there, then its tokens
can be read off the text at their places (`spans_of_rule`).  So it is in each dialect (`Dialect.spans_tokenize`).
-/

namespace DiagramText

/-! ### Places and numbers of characters -/

/-- The place in front of the character number `n` of a text.  The line breaks before it give its line, and the
characters behind the last of them its column. -/
def placeAt (s : Text) (n : Nat) : Place :=
  ⟨(s.take n).count '\n' + 1, ((s.take n).reverse.takeWhile (· != '\n')).length + 1⟩

namespace Place

instance : LT Place := ⟨fun p q => p.line < q.line ∨ p.line = q.line ∧ p.column < q.column⟩

theorem lt_def {p q : Place} : p < q ↔ p.line < q.line ∨ p.line = q.line ∧ p.column < q.column := Iff.rfl

theorem lt_of_lt_of_le {p q r : Place} (h : p < q) (h' : q ≤ r) : p < r := by
  rw [lt_def] at *
  rw [le_def] at h'
  omega

theorem lt_step (p : Place) (c : Char) : p < p.step c := by
  rw [lt_def, step]
  split
  · exact Or.inl (Nat.lt_succ_self _)
  · exact Or.inr ⟨rfl, Nat.lt_succ_self _⟩

theorem lt_after (p : Place) {s : Text} (hs : s ≠ []) : p < p.after s := by
  cases s with
  | nil => exact absurd rfl hs
  | cons c s => exact lt_of_lt_of_le (lt_step p c) (le_after _ s)

private theorem after_eq (s : Text) :
    after {} s = ⟨s.count '\n' + 1, (s.reverse.takeWhile (· != '\n')).length + 1⟩ := by
  induction s using List.reverseRecOn with
  | nil => rfl
  | append_singleton s c ih =>
    have hlast : after {} (s ++ [c]) = (after {} s).step c := List.foldl_append
    rw [hlast, ih, step, List.count_append, List.reverse_append]
    by_cases hc : c = '\n'
    · simp [hc]
    · simp [hc]

end Place

/-- Going on from a place in a text. -/
theorem placeAt_add (s : Text) (m n : Nat) : placeAt s (m + n) = (placeAt s m).after ((s.drop m).take n) := by
  rw [placeAt, placeAt, ← Place.after_eq, ← Place.after_eq, List.take_add, Place.after_append]

theorem placeAt_length (s : Text) : placeAt s s.length = Place.after {} s := by
  rw [placeAt, ← Place.after_eq, List.take_length]

/-- Behind the last character there are no more places. -/
theorem placeAt_min (s : Text) (n : Nat) : placeAt s (min n s.length) = placeAt s n := by
  rw [placeAt, placeAt, ← List.take_eq_take_min]

/-- A cursor in front of a character goes on through the characters behind it. -/
theorem Cursor.rest_place_advance {s : Text} {c : Cursor} {n : Nat} (hrest : c.rest = s.drop n)
    (hplace : c.place = placeAt s n) (k : Nat) :
    (c.advance k).rest = s.drop (n + k) ∧ (c.advance k).place = placeAt s (n + k) := by
  rw [rest_advance, place_advance, hrest, hplace, List.drop_drop, placeAt_add]
  exact ⟨rfl, rfl⟩

/-- The characters of a text stand at different places, one behind the other. -/
theorem placeAt_lt {s : Text} {m n : Nat} (hmn : m < n) (hn : n ≤ s.length) : placeAt s m < placeAt s n := by
  obtain ⟨k, rfl⟩ := Nat.exists_eq_add_of_lt hmn
  rw [Nat.add_assoc, placeAt_add]
  apply Place.lt_after
  intro hnil
  have hlength := congrArg List.length hnil
  rw [List.length_take, List.length_drop, List.length_nil] at hlength
  omega

/-! ### Stretches -/

/-- A token and the part of the text that it takes up. -/
structure Stretch (κ : Type) where
  kind : κ
  /-- The number of its first character. -/
  start : Nat
  length : Nat
deriving DecidableEq, Repr

variable {κ : Type}

namespace Stretch

/-- The number of the first character behind it. -/
def stop (t : Stretch κ) : Nat := t.start + t.length

/-- What stands there. -/
def part (s : Text) (t : Stretch κ) : Text := (s.drop t.start).take t.length

end Stretch

/-- The stretches of the tokens of a text, when its first character has the number `n`. -/
def stretchesFrom (rule : Rule κ) (n : Nat) (s : Text) : List (Stretch κ) :=
  match s with
  | [] => []
  | c :: r =>
    let found := rule.skippingGaps c r
    let tail := stretchesFrom rule (n + (found.more + 1)) (r.drop found.more)
    match found.kind with
    | some kind => ⟨kind, n, found.more + 1⟩ :: tail
    | none => tail
termination_by s.length
decreasing_by
  rw [List.length_drop, List.length_cons]
  omega

theorem stretchesFrom_cons (rule : Rule κ) (n : Nat) (c : Char) (r : Text) :
    stretchesFrom rule n (c :: r) =
      (rule.skippingGaps c r).kind.toList.map (fun k => ⟨k, n, (rule.skippingGaps c r).more + 1⟩) ++
        stretchesFrom rule (n + ((rule.skippingGaps c r).more + 1)) (r.drop (rule.skippingGaps c r).more) := by
  rw [stretchesFrom]
  split
  · rename_i hkind
    rw [hkind]
    rfl
  · rename_i hkind
    rw [hkind]
    rfl

/-- Tokens stand where their stretches begin. -/
private theorem tokensFrom_eq (rule : Rule κ) (s : Text) (cur : Cursor) (n : Nat) (hrest : cur.rest = s.drop n)
    (hplace : cur.place = placeAt s n) :
    tokensFrom rule.skippingGaps cur =
      (stretchesFrom rule n cur.rest).map fun t => ⟨t.kind, placeAt s t.start⟩ := by
  -- the cursor and the number of its character go on together, and the rest of the text belongs to both
  fun_induction tokensFrom rule.skippingGaps cur generalizing n with
  | case1 cur h => rw [h, stretchesFrom]; rfl
  | case2 cur c r h found tail kind hkind ih =>
    obtain ⟨hrest', hplace'⟩ := Cursor.rest_place_advance hrest hplace (found.more + 1)
    have htail := ih _ hrest' hplace'
    rw [Cursor.rest_advance, h, List.drop_succ_cons] at htail
    rw [h, stretchesFrom]
    simp only [found] at hkind
    simp only [hkind]
    rw [List.map_cons, hplace]
    exact congrArg _ htail
  | case3 cur c r h found tail hkind ih =>
    obtain ⟨hrest', hplace'⟩ := Cursor.rest_place_advance hrest hplace (found.more + 1)
    have htail := ih _ hrest' hplace'
    rw [Cursor.rest_advance, h, List.drop_succ_cons] at htail
    rw [h, stretchesFrom]
    simp only [found] at hkind
    simp only [hkind]
    exact htail

theorem tokens_tokenize (rule : Rule κ) (s : Text) :
    (tokenize rule s).tokens = (stretchesFrom rule 0 s).map fun t => ⟨t.kind, placeAt s t.start⟩ :=
  tokensFrom_eq rule s ⟨s, 0, {}⟩ 0 rfl rfl

private theorem drop_of_drop_eq_cons {s r : Text} {n : Nat} {c : Char} (h : s.drop n = c :: r) (k : Nat) :
    s.drop (n + (k + 1)) = r.drop k := by
  rw [← List.drop_drop, h, List.drop_succ_cons]

/-- A stretch is what the rule finds at its first character. -/
theorem exists_rule_of_mem_stretchesFrom {rule : Rule κ} {s : Text} {n : Nat} {t : Stretch κ}
    (h : t ∈ stretchesFrom rule n (s.drop n)) :
    n ≤ t.start ∧ ∃ c r m, s.drop t.start = c :: r ∧ rule c r = ⟨some t.kind, m⟩ ∧ t.length = m + 1 := by
  generalize hrest : s.drop n = rest at h
  fun_induction stretchesFrom rule n rest with
  | case1 => cases h
  | case2 n c r found tail kind hkind ih =>
    rcases List.mem_cons.1 h with rfl | h
    · have hrule : rule c r = ⟨some kind, found.more⟩ := by
        simp only [found, Rule.skippingGaps] at hkind ⊢
        split at hkind
        · cases hkind
        · rename_i hc
          rw [if_neg hc, ← hkind]
      exact ⟨Nat.le_refl _, c, r, found.more, hrest, hrule, rfl⟩
    · obtain ⟨hstart, hfound⟩ := ih (drop_of_drop_eq_cons hrest _) h
      exact ⟨by omega, hfound⟩
  | case3 n c r found tail hkind ih =>
    obtain ⟨hstart, hfound⟩ := ih (drop_of_drop_eq_cons hrest _) h
    exact ⟨by omega, hfound⟩

/-- A stretch takes up something, and no more than there is. -/
theorem LineLocal.inside_of_mem_stretchesFrom {rule : Rule κ} {newline : κ} (h : LineLocal rule newline) {s : Text}
    {t : Stretch κ} (ht : t ∈ stretchesFrom rule 0 s) : t.start < t.stop ∧ t.stop ≤ s.length := by
  obtain ⟨-, c, r, m, hdrop, hrule, hlength⟩ := exists_rule_of_mem_stretchesFrom (n := 0) ht
  have hmore := h.more_le c r
  have hrest := congrArg List.length hdrop
  rw [hrule] at hmore
  rw [List.length_drop, List.length_cons] at hrest
  rw [Stretch.stop, hlength]
  dsimp only at hmore
  omega

/-- Where a stretch ends the next one has not begun. -/
private theorem pairwise_stretchesFrom (rule : Rule κ) (s : Text) (n : Nat) :
    (stretchesFrom rule n (s.drop n)).Pairwise fun a b => a.stop ≤ b.start := by
  generalize hrest : s.drop n = rest
  fun_induction stretchesFrom rule n rest with
  | case1 => exact List.Pairwise.nil
  | case2 n c r found tail kind hkind ih =>
    have hbehind := drop_of_drop_eq_cons hrest found.more
    refine List.Pairwise.cons (fun t ht => ?_) (ih hbehind)
    simp only [tail] at ht
    rw [← hbehind] at ht
    exact (exists_rule_of_mem_stretchesFrom ht).1
  | case3 n c r found tail hkind ih => exact ih (drop_of_drop_eq_cons hrest _)

/-! ### What stands at a token -/

/-- All tokens of a text.  The last one stands at its end and is of no kind. -/
def Tokens.all (cut : Tokens κ) : List (Token (Option κ)) :=
  cut.tokens.map (fun t => ⟨some t.kind, t.place⟩) ++ [⟨none, cut.finish⟩]

/-- How a token is written: a string behind its opening quote, any other token as it is. -/
def Spelled (text : κ → Text) (string? : κ → Option Text) (k : κ) (part : Text) : Prop :=
  match string? k with
  | some value => '"' :: value <+: part ∧ '"' ∉ value ∧ '\n' ∉ value
  | none => text k <+: part

/-- The tokens of a text take up stretches of it, one behind the other, and stand where these begin.  What is written
there begins with the token, and does not go beyond the line unless the token is a line break.  The last token is the
only one of no kind, and it stands at the end of the text. -/
structure Spans (text : κ → Text) (string? : κ → Option Text) (newline : κ) (s : Text) (cut : Tokens κ)
    (ts : List (Stretch κ)) : Prop where
  tokens : cut.all = ts.map (fun t => ⟨some t.kind, placeAt s t.start⟩) ++ [⟨none, placeAt s s.length⟩]
  inside : ∀ t ∈ ts, t.start < t.stop ∧ t.stop ≤ s.length
  apart : ts.Pairwise fun a b => a.stop ≤ b.start
  ascending : (cut.all.map Token.place).Pairwise (· < ·)
  spelled : ∀ t ∈ ts, Spelled text string? t.kind (t.part s)
  line : ∀ t ∈ ts, t.kind ≠ newline → '\n' ∉ t.part s

/-- A rule takes up no more than the line. -/
private theorem break_not_mem_take {rule : Rule κ} {newline : κ} (h : LineLocal rule newline) {c : Char} {r : Text}
    {k : κ} {m : Nat} (hrule : rule c r = ⟨some k, m⟩) (hk : k ≠ newline) : '\n' ∉ (c :: r).take (m + 1) := by
  have hc : c ≠ '\n' := by
    rintro rfl
    rw [h.at_break] at hrule
    cases hrule
    exact hk rfl
  have hmore := h.more_le c (Text.firstLine r)
  rw [← h.line c r hc, hrule] at hmore
  have hlead : r.take m <+: Text.firstLine r := by
    refine List.prefix_of_prefix_length_le (List.take_prefix m r) (List.takeWhile_prefix _) ?_
    exact Nat.le_trans (List.length_take_le m r) hmore
  rw [List.take_succ_cons, List.mem_cons, not_or]
  exact ⟨Ne.symm hc, fun hbreak => Text.break_not_mem_firstLine r (hlead.subset hbreak)⟩

/-- The tokens of a rule can be read off the text if what the rule takes up begins with the token that it finds. -/
theorem spans_of_rule {rule : Rule κ} {newline : κ} {text : κ → Text} {string? : κ → Option Text}
    (h : LineLocal rule newline)
    (hspelled : ∀ c r k m, rule c r = ⟨some k, m⟩ → Spelled text string? k ((c :: r).take (m + 1))) (s : Text) :
    Spans text string? newline s (tokenize rule s) (stretchesFrom rule 0 s) := by
  have hfound : ∀ t ∈ stretchesFrom rule 0 s,
      ∃ c r m, s.drop t.start = c :: r ∧ rule c r = ⟨some t.kind, m⟩ ∧ t.length = m + 1 := fun t ht =>
    (exists_rule_of_mem_stretchesFrom ht).2
  have htokens : (tokenize rule s).all = (stretchesFrom rule 0 s).map (fun t => ⟨some t.kind, placeAt s t.start⟩) ++
      [⟨none, placeAt s s.length⟩] := by
    rw [Tokens.all, tokens_tokenize, List.map_map, placeAt_length]
    rfl
  have hinside : ∀ t ∈ stretchesFrom rule 0 s, t.start < t.stop ∧ t.stop ≤ s.length := fun t ht =>
    h.inside_of_mem_stretchesFrom ht
  have hapart := pairwise_stretchesFrom rule s 0
  rw [List.drop_zero] at hapart
  refine ⟨htokens, hinside, hapart, ?_, ?_, ?_⟩
  · rw [htokens, List.map_append, List.map_map, List.pairwise_append]
    refine ⟨List.pairwise_map.2 (hapart.imp_of_mem fun {a b} ha hb hab => ?_), List.pairwise_singleton _ _, ?_⟩
    · have hb' := hinside b hb
      exact placeAt_lt (Nat.lt_of_lt_of_le (hinside a ha).1 hab) (by omega)
    · intro p hp q hq
      obtain ⟨t, ht, rfl⟩ := List.mem_map.1 hp
      rw [List.map_singleton, List.mem_singleton] at hq
      have ht' := hinside t ht
      rw [hq]
      exact placeAt_lt (by omega) (Nat.le_refl _)
  · intro t ht
    obtain ⟨c, r, m, hdrop, hrule, hlength⟩ := hfound t ht
    rw [Stretch.part, hdrop, hlength]
    exact hspelled c r t.kind m hrule
  · intro t ht hkind
    obtain ⟨c, r, m, hdrop, hrule, hlength⟩ := hfound t ht
    rw [Stretch.part, hdrop, hlength]
    exact break_not_mem_take h hrule hkind

section

variable {text : κ → Text} {string? : κ → Option Text} {k : κ}

private theorem Spelled.of_start (hk : string? k = none) {s : Text} {n : Nat} (h : text k <+: s)
    (hn : (text k).length ≤ n) : Spelled text string? k (s.take n) := by
  rw [Spelled, hk]
  exact List.prefix_take_iff.2 ⟨h, hn⟩

private theorem Spelled.of_char {c : Char} (hk : string? k = none) (htext : text k = [c]) (r : Text) :
    Spelled text string? k ((c :: r).take (0 + 1)) := by
  refine .of_start hk ?_ ?_
  · rw [htext]
    exact List.prefix_append [c] r
  · rw [htext]
    exact Nat.le_refl _

private theorem Spelled.of_takeWhile {c : Char} {r : Text} {p : Char → Bool} {n : Nat} (hk : string? k = none)
    (htext : text k = c :: r.takeWhile p) (hn : (c :: r.takeWhile p).length ≤ n) :
    Spelled text string? k ((c :: r).take n) := by
  refine .of_start hk ?_ ?_
  · rw [htext]
    exact (List.prefix_cons_inj c).2 (List.takeWhile_prefix p)
  · rwa [htext]

/-- A string is written behind its opening quote. -/
private theorem Spelled.of_quoted {r : Text} (hk : string? k = some (Text.quoted r).1) :
    Spelled text string? k (('"' :: r).take ((Text.quoted r).2 + 1)) := by
  rw [Spelled, hk]
  have hfree := Text.isQuotable_iff.1 (Text.isQuotable_quoted r)
  refine ⟨?_, hfree.1, hfree.2⟩
  rw [List.take_succ_cons, List.prefix_cons_inj, List.prefix_take_iff]
  exact ⟨List.takeWhile_prefix _, Nat.le_add_right _ _⟩

end

/-! ### The dialects -/

namespace Er

def Kind.string? : Kind → Option Text
  | string value => some value
  | _ => none

private theorem text_ofWord (w : Text) : (Kind.ofWord w).text = w ∧ (Kind.ofWord w).string? = none := by
  unfold Kind.ofWord
  split
  · rename_i h
    exact ⟨h.symm, rfl⟩
  · split
    · exact ⟨rfl, rfl⟩
    · exact ⟨rfl, rfl⟩

theorem spelled_rule (c : Char) (r : Text) (k : Kind) (m : Nat) (h : rule c r = ⟨some k, m⟩) :
    Spelled Kind.text Kind.string? k ((c :: r).take (m + 1)) := by
  unfold rule at h
  split at h
  · cases h
    exact .of_takeWhile rfl rfl (Nat.le_refl _)
  split at h
  · rename_i hc
    cases h
    exact .of_char rfl (hc ▸ rfl) r
  split at h
  · rename_i hc
    cases h
    exact .of_char rfl (hc ▸ rfl) r
  split at h
  · rename_i hc
    cases h
    exact .of_char rfl (hc ▸ rfl) r
  split at h
  · rename_i hc
    cases h
    subst hc
    exact .of_quoted rfl
  split at h
  · rename_i symbol hsymbol
    cases h
    obtain ⟨htake, hlength, -⟩ := relationSymbol?_eq_some hsymbol
    refine .of_start rfl ?_ ?_
    · exact htake ▸ List.take_prefix _ _
    · show symbol.length ≤ symbol.length - 1 + 1
      omega
  split at h
  · rename_i hc
    cases h
    exact .of_char rfl (hc ▸ rfl) r
  split at h
  · cases h
    obtain ⟨htext, hstring⟩ := text_ofWord (c :: r.takeWhile Text.isWordChar)
    exact .of_takeWhile hstring htext (Nat.le_refl _)
  · cases h

end Er

namespace Flowchart

private theorem text_ofReserved? {w : Text} {k : Kind} (h : Kind.ofReserved? w = some k) : k.text = w := by
  unfold Kind.ofReserved? at h
  split at h
  · rename_i hw
    cases h
    exact hw.symm
  split at h
  · rename_i hw
    cases h
    exact hw.symm
  cases hkeyword : Keyword.ofWord? w with
  | some keyword =>
    rw [hkeyword] at h
    cases h
    have hword := List.find?_some hkeyword
    exact of_decide_eq_true hword
  | none =>
    rw [hkeyword] at h
    obtain ⟨direction, hdirection, rfl⟩ := Option.map_eq_some_iff.1 h
    have hword := List.find?_some hdirection
    exact of_decide_eq_true hword

/-- A token that begins with a word takes up the word. -/
private theorem text_wordRule {w behind : Text} {k : Kind} {m : Nat} (hw : w ≠ [])
    (h : wordRule w behind = ⟨some k, m⟩) : k.text = w ∧ w.length ≤ m + 1 := by
  have hlength : 0 < w.length := List.length_pos_iff.2 hw
  unfold wordRule at h
  split at h
  · rename_i kind hkind
    cases h
    exact ⟨text_ofReserved? hkind, by omega⟩
  dsimp only at h
  split at h
  · cases h
    exact ⟨rfl, by omega⟩
  · cases h
    exact ⟨rfl, by omega⟩

theorem spelled_rule (c : Char) (r : Text) (k : Kind) (m : Nat) (h : rule c r = ⟨some k, m⟩) :
    Spelled Kind.text (fun _ => none) k ((c :: r).take (m + 1)) := by
  unfold rule at h
  split at h
  · rename_i hc
    cases h
    exact .of_char rfl (hc ▸ rfl) r
  split at h
  · cases h
    exact .of_takeWhile rfl rfl (Nat.le_refl _)
  split at h
  · rename_i found hfound
    cases h
    have hlength := (readLink_length hfound).1
    refine .of_start rfl (List.take_prefix _ _) ?_
    refine Nat.le_trans (List.length_take_le _ _) ?_
    omega
  split at h
  · obtain ⟨htext, hlength⟩ := text_wordRule (List.cons_ne_nil _ _) h
    exact .of_takeWhile rfl htext hlength
  · cases h

end Flowchart

namespace Sequence

def Kind.string? : Kind → Option Text
  | string value => some value
  | _ => none

private theorem text_ofWord (w behind : Text) :
    (Kind.ofWord w behind).text = w ∧ (Kind.ofWord w behind).string? = none := by
  have hreserved : ∀ k ∈ Kind.reservedTokens behind, k.string? = none := by
    simp [Kind.reservedTokens, Kind.string?]
  unfold Kind.ofWord
  cases h : (Kind.reservedTokens behind).find? (·.text = w) with
  | none => exact ⟨rfl, rfl⟩
  | some k =>
    have htext := List.find?_some h
    exact ⟨of_decide_eq_true htext, hreserved k (List.mem_of_find?_eq_some h)⟩

theorem spelled_rule (c : Char) (r : Text) (k : Kind) (m : Nat) (h : rule c r = ⟨some k, m⟩) :
    Spelled Kind.text Kind.string? k ((c :: r).take (m + 1)) := by
  unfold rule at h
  split at h
  · rename_i hc
    cases h
    exact .of_char rfl (hc ▸ rfl) r
  split at h
  · rename_i hc
    cases h
    exact .of_char rfl (hc ▸ rfl) r
  split at h
  · rename_i hc
    cases h
    exact .of_char rfl (hc ▸ rfl) r
  split at h
  · cases h
    exact .of_takeWhile rfl rfl (Nat.le_refl _)
  split at h
  · rename_i type htype
    cases h
    have hlead := List.find?_some htype
    rw [List.isPrefixOf_iff_prefix] at hlead
    refine .of_start rfl hlead ?_
    show type.symbol.length ≤ type.symbol.length - 1 + 1
    omega
  split at h
  · rename_i hc
    cases h
    subst hc
    exact .of_quoted rfl
  split at h
  · cases h
    obtain ⟨htext, hstring⟩ := text_ofWord (c :: r.takeWhile Text.isWordChar)
      (Text.firstLine (r.drop (r.takeWhile Text.isWordChar).length))
    exact .of_takeWhile hstring htext (Nat.le_refl _)
  · cases h

end Sequence

/-- In each dialect, tokens can be read off the text at their places. -/
theorem Dialect.spans_tokenize (s : Text) :
    (∃ ts, Spans Er.Kind.text Er.Kind.string? .newline s (tokenize Er.rule s) ts) ∧
    (∃ ts, Spans Flowchart.Kind.text (fun _ => none) .newline s (tokenize Flowchart.rule s) ts) ∧
    ∃ ts, Spans Sequence.Kind.text Sequence.Kind.string? .newline s (tokenize Sequence.rule s) ts :=
  ⟨⟨_, spans_of_rule Er.rule_lineLocal Er.spelled_rule s⟩,
    ⟨_, spans_of_rule Flowchart.rule_lineLocal Flowchart.spelled_rule s⟩,
    ⟨_, spans_of_rule Sequence.rule_lineLocal Sequence.spelled_rule s⟩⟩

end DiagramText

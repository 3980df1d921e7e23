import DiagramText.Proofs.Text.Lines

/-!
# Parts of a text

Where a part first occurs (`find?_eq_some_iff`), and what stripping leaves: a part of the text without outer blanks
(`infix_strip`, `strip_strip`), which is the whole text only if nothing was to strip (`strip_eq_of_length`).
-/

namespace DiagramText.Text

/-- A text that can stand between quotes. -/
def isQuotable (s : Text) : Bool := !s.contains '"' && !s.contains '\n'

theorem isQuotable_iff {s : Text} : isQuotable s = true ↔ '"' ∉ s ∧ '\n' ∉ s := by
  simp [isQuotable]

theorem isQuotable_quoted (s : Text) : isQuotable (quoted s).1 = true :=
  isQuotable_iff.2 (not_mem_takeWhile_bar '"' s)

theorem isQuotable_of_isWord {w : Text} (h : isWord w = true) : isQuotable w = true :=
  isQuotable_iff.2 ⟨quote_not_mem_of_isWord h, break_not_mem_of_isWord h⟩

/-! ### The first occurrence -/

theorem find?_eq_some_iff {part s : Text} (hp : part ≠ []) {i : Nat} :
    find? part s = some i ↔ part <+: s.drop i ∧ ∀ j < i, ¬ part <+: s.drop j := by
  induction s generalizing i with
  | nil =>
    have hnone : find? part [] = none := by
      cases part with
      | nil => exact absurd rfl hp
      | cons a part => rfl
    simp [hnone, hp]
  | cons c s ih =>
    unfold find?
    split
    · rename_i h
      rw [List.isPrefixOf_iff_prefix] at h
      constructor
      · intro hi
        cases hi
        exact ⟨h, fun j hj => absurd hj (Nat.not_lt_zero j)⟩
      · rintro ⟨-, hfirst⟩
        cases i with
        | zero => rfl
        | succ i => exact absurd h (hfirst 0 (Nat.succ_pos i))
    · rename_i h
      rw [List.isPrefixOf_iff_prefix] at h
      cases i with
      | zero =>
        constructor
        · intro hi
          obtain ⟨k, -, hk⟩ := Option.map_eq_some_iff.1 hi
          cases hk
        · exact fun hi => absurd hi.1 h
      | succ i =>
        rw [List.drop_succ_cons]
        constructor
        · intro hi
          obtain ⟨k, hk, rfl⟩ : ∃ k, find? part s = some k ∧ k = i := by
            simpa using hi
          obtain ⟨hat, hfirst⟩ := ih.1 hk
          refine ⟨hat, ?_⟩
          intro j hj
          cases j with
          | zero => exact h
          | succ j => exact hfirst j (Nat.lt_of_succ_lt_succ hj)
        · rintro ⟨hat, hfirst⟩
          have hk := ih.2 ⟨hat, fun j hj => hfirst (j + 1) (Nat.succ_lt_succ hj)⟩
          rw [hk]
          rfl

/-- A part that occurs has a first occurrence. -/
theorem exists_find?_le {part s : Text} (hp : part ≠ []) {i : Nat} (h : part <+: s.drop i) :
    ∃ j, find? part s = some j ∧ j ≤ i := by
  induction i using Nat.strongRecOn with
  | ind i ih =>
    by_cases hfirst : ∀ j < i, ¬ part <+: s.drop j
    · exact ⟨i, (find?_eq_some_iff hp).2 ⟨h, hfirst⟩, Nat.le_refl i⟩
    · have hex : ∃ j, j < i ∧ part <+: s.drop j :=
        Classical.byContradiction fun hno => hfirst fun j hj hat => hno ⟨j, hj, hat⟩
      obtain ⟨j, hj, hat⟩ := hex
      obtain ⟨k, hk, hkj⟩ := ih j hj hat
      exact ⟨k, hk, by omega⟩

theorem find?_eq_none_iff {part s : Text} (hp : part ≠ []) : find? part s = none ↔ ∀ j, ¬ part <+: s.drop j := by
  constructor
  · intro h j hat
    obtain ⟨i, hi, -⟩ := exists_find?_le hp hat
    rw [h] at hi
    cases hi
  · intro h
    cases hi : find? part s with
    | none => rfl
    | some i => exact absurd ((find?_eq_some_iff hp).1 hi).1 (h i)

/-- A character behind a text makes no new occurrence of a part that does not hold it. -/
theorem find?_append_of_not_mem {part : Text} (hp : part ≠ []) {c : Char} (h : c ∉ part) (s : Text) :
    find? part (s ++ [c]) = find? part s := by
  induction s with
  | nil =>
    cases part with
    | nil => exact absurd rfl hp
    | cons d part =>
      have hbegins : (d :: part).isPrefixOf [c] = false := isPrefixOf_append_of_not_mem h [] []
      show (if (d :: part).isPrefixOf [c] then some 0 else (find? (d :: part) []).map (· + 1)) = _
      rw [hbegins]
      rfl
  | cons d s ih =>
    have hbegins : part.isPrefixOf (d :: (s ++ [c])) = part.isPrefixOf (d :: s) :=
      isPrefixOf_append_of_not_mem h (d :: s) []
    rw [List.cons_append, find?, find?, hbegins, ih]

/-! ### Stripping -/

variable {p : Char → Bool}

theorem prefix_trimEnd (p : Char → Bool) (s : Text) : trimEnd p s <+: s := by
  unfold trimEnd
  rw [← List.reverse_suffix, List.reverse_reverse]
  exact List.dropWhile_suffix _

theorem infix_trim (p : Char → Bool) (s : Text) : trim p s <:+: s :=
  (prefix_trimEnd p _).isInfix.trans (List.dropWhile_suffix _).isInfix

theorem infix_strip (s : Text) : strip s <:+: s := infix_trim _ s

theorem mem_of_mem_strip {s : Text} {c : Char} (h : c ∈ strip s) : c ∈ s := (infix_strip s).subset h

theorem length_strip_le (s : Text) : (strip s).length ≤ s.length := (infix_strip s).length_le

theorem strip_eq_of_length {s : Text} (h : (strip s).length = s.length) : strip s = s := (infix_strip s).eq_of_length h

private theorem head?_dropWhile (p : Char → Bool) (s : Text) : ∀ c ∈ (s.dropWhile p).head?, p c = false := by
  intro c hc
  induction s with
  | nil => cases hc
  | cons d s ih =>
    rw [List.dropWhile_cons] at hc
    split at hc
    · exact ih hc
    · rename_i hd
      cases hc
      simpa using hd

private theorem dropWhile_of_head? {s : Text} (h : ∀ c ∈ s.head?, p c = false) : s.dropWhile p = s := by
  cases s with
  | nil => rfl
  | cons c s => rw [List.dropWhile_cons, if_neg (by simp [h c (by simp)])]

/-- What is trimmed neither begins nor ends with the class. -/
theorem trim_ends (p : Char → Bool) (s : Text) :
    (∀ c ∈ (trim p s).head?, p c = false) ∧ ∀ c ∈ (trim p s).getLast?, p c = false := by
  constructor
  · intro c hc
    obtain ⟨t, ht⟩ := prefix_trimEnd p (s.dropWhile p)
    apply head?_dropWhile p s
    rw [← ht]
    unfold trim at hc
    cases h : trimEnd p (s.dropWhile p) with
    | nil => rw [h] at hc; cases hc
    | cons d r =>
      rw [h] at hc
      exact hc
  · intro c hc
    unfold trim trimEnd at hc
    rw [List.getLast?_reverse] at hc
    exact head?_dropWhile p _ c hc

theorem trim_of_ends {s : Text} (hh : ∀ c ∈ s.head?, p c = false) (hl : ∀ c ∈ s.getLast?, p c = false) :
    trim p s = s := by
  rw [trim, dropWhile_of_head? hh, trimEnd_of_getLast? hl]

theorem strip_strip (s : Text) : strip (strip s) = strip s := trim_of_ends (trim_ends _ s).1 (trim_ends _ s).2

/-- A blank at the end is stripped. -/
theorem strip_append_blank {c : Char} (hc : isBlank c = true) (s : Text) : strip (s ++ [c]) = strip s := by
  have hend : ∀ u : Text, trimEnd isBlank (u ++ [c]) = trimEnd isBlank u := by
    intro u
    unfold trimEnd
    rw [List.reverse_append, List.reverse_singleton, List.singleton_append, List.dropWhile_cons_of_pos hc]
  unfold strip trim
  rw [List.dropWhile_append]
  split
  · rename_i h
    rw [List.isEmpty_iff.1 h, List.dropWhile_cons_of_pos hc]
    rfl
  · exact hend _

/-- At the end of a text only a run of the class is trimmed. -/
theorem exists_trimEnd_append (p : Char → Bool) (s : Text) : ∃ r, s = trimEnd p s ++ r ∧ ∀ c ∈ r, p c = true := by
  refine ⟨(s.reverse.takeWhile p).reverse, ?_,
    fun c hc => List.all_eq_true.1 List.all_takeWhile c (List.mem_reverse.1 hc)⟩
  rw [trimEnd, ← List.reverse_append, List.takeWhile_append_dropWhile, List.reverse_reverse]

/-- Blanks at the end are stripped. -/
theorem strip_append_blanks {r : Text} (h : ∀ c ∈ r, isBlank c = true) (s : Text) : strip (s ++ r) = strip s := by
  induction r generalizing s with
  | nil => rw [List.append_nil]
  | cons c r ih =>
    rw [List.forall_mem_cons] at h
    rw [List.append_cons, ih h.2, strip_append_blank h.1]

/-- A text that does not end with the class is not trimmed. -/
theorem trimEnd_append {w : Text} (h : ∀ c ∈ w.getLast?, p c = false) (s : Text) :
    trimEnd p (w ++ s) = w ++ trimEnd p s := by
  unfold trimEnd
  rw [List.reverse_append, List.dropWhile_append]
  split
  · rename_i hs
    have hnil : trimEnd p w = w := trimEnd_of_getLast? h
    rw [List.isEmpty_iff.1 hs, ← trimEnd, hnil, List.reverse_nil, List.append_nil]
  · rw [List.reverse_append, List.reverse_reverse]

/-- Only blanks are stripped. -/
theorem mem_strip {s : Text} {c : Char} (h : c ∈ s) (hc : isBlank c = false) : c ∈ strip s := by
  have hdrop : ∀ {s : Text}, c ∈ s → c ∈ s.dropWhile isBlank := by
    intro s h
    rw [← List.takeWhile_append_dropWhile (p := isBlank) (l := s), List.mem_append] at h
    refine h.resolve_left fun h => ?_
    rw [List.all_eq_true.1 List.all_takeWhile c h] at hc
    cases hc
  unfold strip trim trimEnd
  exact List.mem_reverse.2 (hdrop (List.mem_reverse.2 (hdrop h)))

/-! ### Words and numbers -/

/-- A word is made of word characters and does not begin with a digit. -/
theorem isWord_iff {w : Text} :
    isWord w = true ↔ w ≠ [] ∧ (∀ c ∈ w, isWordChar c = true) ∧ ∀ c ∈ w.head?, c.isDigit = false := by
  cases w with
  | nil => simp [isWord]
  | cons c w =>
    have hstart : isWordStart c = true ↔ isWordChar c = true ∧ c.isDigit = false := by
      have hdigit : isWordStart c = true → c.isDigit = false := by
        intro h
        rw [isWordStart, Bool.or_eq_true, beq_iff_eq, isAlpha_iff] at h
        rw [Bool.eq_false_iff, Ne, isDigit_iff]
        rcases h with h | rfl
        · omega
        · decide
      refine ⟨fun h => ⟨isWordChar_of_isWordStart h, hdigit h⟩, ?_⟩
      rintro ⟨hw, hd⟩
      rw [isWordChar, Bool.or_eq_true, isAlphanum_iff, hd] at hw
      rw [isWordStart, Bool.or_eq_true]
      exact hw.imp_left fun h => h.resolve_right Bool.false_ne_true
    simp only [isWord, Bool.and_eq_true, List.all_eq_true, hstart, List.forall_mem_cons, ne_eq, reduceCtorEq,
      not_false_eq_true, true_and, List.head?_cons, Option.mem_def, Option.some.injEq, forall_eq']
    exact ⟨fun h => ⟨⟨h.1.1, h.2⟩, h.1.2⟩, fun h => ⟨⟨h.1.1, h.2⟩, h.1.2⟩⟩

private theorem ofNat_eq_toDigits (n : Nat) : ofNat n = Nat.toDigits 10 n := by
  simp [ofNat, Nat.toList_repr]

theorem ofNat_inj {m n : Nat} (h : ofNat m = ofNat n) : m = n := by
  rw [ofNat_eq_toDigits, ofNat_eq_toDigits] at h
  rw [← Nat.ofDigitChars_ten_toDigits (n := m), h, Nat.ofDigitChars_ten_toDigits]

theorem isWordChar_of_mem_ofNat {n : Nat} {c : Char} (h : c ∈ ofNat n) : isWordChar c = true := by
  rw [ofNat_eq_toDigits] at h
  have hdigit : c.isDigit = true := Nat.isDigit_of_mem_toDigits (by decide) (by decide) h
  rw [isWordChar, isAlphanum_iff.2 (Or.inr hdigit), Bool.true_or]

end DiagramText.Text

import DiagramText.Text.Basic

/-!
# First lines and runs

How runs of characters of a class, beginnings of a text and its first line fit together.  A run that is followed by
nothing of its class is read exactly (`takeWhile_append_exact`), and what looks only at runs without line breaks sees
no more than the first line.  A text is its lines put together (`unlines_lines`).
-/

namespace DiagramText.Text

/-! ### Classes of characters -/

/-- What holds of a text when it is checked character by character. -/
theorem forall_of_all {p : Char → Prop} [DecidablePred p] {s : Text} (h : s.all (fun c => decide (p c)) = true) :
    ∀ c ∈ s, p c :=
  fun c hc => of_decide_eq_true (List.all_eq_true.1 h c hc)

theorem isWordChar_eq_false_of_isBlank {c : Char} (h : isBlank c = true) : isWordChar c = false := by
  cases hw : isWordChar c with
  | false => rfl
  | true =>
    simp only [isBlank, Bool.or_eq_true, Bool.and_eq_true, decide_eq_true_eq, beq_iff_eq] at h
    rw [isWordChar, Bool.or_eq_true, beq_iff_eq, isAlphanum_iff, isAlpha_iff, isDigit_iff] at hw
    rcases hw with hw | rfl
    · omega
    · exact absurd h (by decide)

theorem isWordChar_of_isWordStart {c : Char} (h : isWordStart c = true) : isWordChar c = true := by
  simp only [isWordStart, isWordChar, Bool.or_eq_true, beq_iff_eq, isAlphanum_iff] at h ⊢
  exact h.imp Or.inl id

theorem isGap_eq_false_of_isWordStart {c : Char} (h : isWordStart c = true) : isGap c = false := by
  cases hg : isGap c with
  | false => rfl
  | true =>
    have := isWordChar_eq_false_of_isBlank (isBlank_of_isGap hg)
    rw [isWordChar_of_isWordStart h] at this
    cases this

private theorem not_mem_of_isWord {w : Text} (h : isWord w = true) {c : Char} (hs : isWordStart c = false)
    (hc : isWordChar c = false) : c ∉ w := by
  intro hm
  cases w with
  | nil => cases hm
  | cons d w =>
    simp only [isWord, Bool.and_eq_true, List.all_eq_true] at h
    rcases List.mem_cons.1 hm with rfl | hm
    · exact absurd h.1 (by simp [hs])
    · exact absurd (h.2 _ hm) (by simp [hc])

theorem break_not_mem_of_isWord {w : Text} (h : isWord w = true) : '\n' ∉ w :=
  not_mem_of_isWord h (by decide) (by decide)

theorem quote_not_mem_of_isWord {w : Text} (h : isWord w = true) : '"' ∉ w :=
  not_mem_of_isWord h (by decide) (by decide)

theorem break_not_mem_indent (size : Int) (depth : Nat) : '\n' ∉ indent size depth := by
  intro h
  have := (List.mem_replicate.1 h).2
  cases this

/-! ### Runs -/

theorem takeWhile_append_exact {p : Char → Bool} {w rest : Text} (hw : ∀ c ∈ w, p c = true)
    (hr : ∀ c ∈ rest.head?, p c = false) : (w ++ rest).takeWhile p = w := by
  have hstop : rest.takeWhile p = [] := by
    cases rest with
    | nil => rfl
    | cons c r => simp [hr c (by simp)]
  rw [List.takeWhile_append_of_pos hw, hstop, List.append_nil]

theorem takeWhile_exact {p : Char → Bool} {w : Text} (hw : ∀ c ∈ w, p c = true) : w.takeWhile p = w := by
  have h := takeWhile_append_exact hw (show ∀ c ∈ ([] : Text).head?, p c = false by simp)
  rwa [List.append_nil] at h

theorem take_length_takeWhile (p : Char → Bool) (s : Text) : s.take (s.takeWhile p).length = s.takeWhile p :=
  (List.prefix_iff_eq_take.1 (List.takeWhile_prefix p)).symm

theorem drop_length_takeWhile (p : Char → Bool) (s : Text) : s.drop (s.takeWhile p).length = s.dropWhile p := by
  induction s with
  | nil => rfl
  | cons c s ih =>
    rw [List.takeWhile_cons, List.dropWhile_cons]
    split
    · exact ih
    · rfl

/-- A character outside the class ends a run. -/
theorem takeWhile_append_of_neg {p : Char → Bool} {c : Char} (hc : p c = false) (s u : Text) :
    (s ++ c :: u).takeWhile p = s.takeWhile p := by
  induction s with
  | nil =>
    rw [List.nil_append, List.takeWhile_cons, hc]
    rfl
  | cons d s ih => rw [List.cons_append, List.takeWhile_cons, List.takeWhile_cons, ih]

theorem forall_ne_bar_iff {bar : Char} {s : Text} :
    (∀ c ∈ s, (c != bar && c != '\n') = true) ↔ bar ∉ s ∧ '\n' ∉ s := by
  simp only [Bool.and_eq_true, bne_iff_ne]
  constructor
  · exact fun h => ⟨fun hmem => (h _ hmem).1 rfl, fun hmem => (h _ hmem).2 rfl⟩
  · rintro ⟨hbar, hbreak⟩ c hc
    exact ⟨fun e => hbar (e ▸ hc), fun e => hbreak (e ▸ hc)⟩

/-- What stands in front of the next bar, or up to the end of the line, holds neither. -/
theorem not_mem_takeWhile_bar (bar : Char) (s : Text) :
    bar ∉ s.takeWhile (fun c => c != bar && c != '\n') ∧ '\n' ∉ s.takeWhile fun c => c != bar && c != '\n' :=
  forall_ne_bar_iff.1 (List.all_eq_true.1 List.all_takeWhile)

theorem takeWhile_append_bar {bar : Char} {s rest : Text} (hbar : bar ∉ s) (hbreak : '\n' ∉ s)
    (hrest : rest.head? = some bar) : (s ++ rest).takeWhile (fun c => c != bar && c != '\n') = s := by
  apply takeWhile_append_exact (forall_ne_bar_iff.2 ⟨hbar, hbreak⟩)
  rw [hrest]
  simp

/-- A part does not reach over a character that it does not have. -/
theorem isPrefixOf_append_of_not_mem {part : Text} {c : Char} (h : c ∉ part) (s u : Text) :
    part.isPrefixOf (s ++ c :: u) = part.isPrefixOf s := by
  induction part generalizing s with
  | nil => rfl
  | cons d part ih =>
    rw [List.mem_cons, not_or] at h
    cases s with
    | nil =>
      have hd : (d == c) = false := beq_false_of_ne (Ne.symm h.1)
      rw [List.nil_append, List.isPrefixOf_cons_cons, hd]
      rfl
    | cons e s => rw [List.cons_append, List.isPrefixOf_cons_cons, List.isPrefixOf_cons_cons, ih h.2]

/-! ### The first line -/

@[simp] theorem firstLine_nil : firstLine [] = [] := rfl

@[simp] theorem firstLine_break (s : Text) : firstLine ('\n' :: s) = [] := rfl

theorem firstLine_cons {c : Char} (h : c ≠ '\n') (s : Text) : firstLine (c :: s) = c :: firstLine s := by
  simp [firstLine, h]

theorem firstLine_append {l : Text} (h : '\n' ∉ l) (s : Text) : firstLine (l ++ s) = l ++ firstLine s := by
  refine List.takeWhile_append_of_pos ?_
  intro c hc
  exact bne_iff_ne.2 fun e => h (e ▸ hc)

theorem break_not_mem_firstLine (s : Text) : '\n' ∉ firstLine s := by
  intro h
  have := List.all_takeWhile (p := fun c : Char => c != '\n') (l := s)
  rw [List.all_eq_true] at this
  simpa using this _ h

theorem firstLine_append_break {l : Text} (h : '\n' ∉ l) (s : Text) : firstLine (l ++ '\n' :: s) = l := by
  rw [firstLine_append h, firstLine_break, List.append_nil]

theorem firstLine_of_not_mem {l : Text} (h : '\n' ∉ l) : firstLine l = l := by
  rw [← List.append_nil l, firstLine_append h, firstLine_nil]

theorem firstLine_firstLine (s : Text) : firstLine (firstLine s) = firstLine s :=
  firstLine_of_not_mem (break_not_mem_firstLine s)

theorem length_firstLine_le (s : Text) : (firstLine s).length ≤ s.length := (List.takeWhile_prefix _).length_le

/-- A text is its first line, and then nothing or a line break. -/
theorem firstLine_cases (s : Text) : s = firstLine s ∨ ∃ r, s = firstLine s ++ '\n' :: r := by
  induction s with
  | nil => exact Or.inl rfl
  | cons c s ih =>
    by_cases hc : c = '\n'
    · subst hc; exact Or.inr ⟨s, rfl⟩
    · rw [firstLine_cons hc]
      rcases ih with h | ⟨r, h⟩
      · exact Or.inl (congrArg (c :: ·) h)
      · exact Or.inr ⟨r, congrArg (c :: ·) h⟩

theorem firstLine_append_of_mem {s : Text} (h : '\n' ∈ s) (u : Text) : firstLine (s ++ u) = firstLine s := by
  rcases firstLine_cases s with hs | ⟨r, hs⟩
  · exact absurd (hs ▸ h) (break_not_mem_firstLine s)
  · have hline := break_not_mem_firstLine s
    generalize firstLine s = l at hs hline ⊢
    rw [hs, List.append_assoc, List.cons_append, firstLine_append_break hline]

theorem takeWhile_firstLine {p : Char → Bool} (hp : p '\n' = false) (s : Text) :
    (firstLine s).takeWhile p = s.takeWhile p := by
  induction s with
  | nil => rfl
  | cons c s ih =>
    by_cases hc : c = '\n'
    · subst hc; simp [hp]
    · rw [firstLine_cons hc, List.takeWhile_cons, List.takeWhile_cons, ih]

theorem isPrefixOf_firstLine {part : Text} (h : '\n' ∉ part) (s : Text) :
    part.isPrefixOf (firstLine s) = part.isPrefixOf s := by
  induction part generalizing s with
  | nil => rfl
  | cons a part ih =>
    simp only [List.mem_cons, not_or] at h
    cases s with
    | nil => rfl
    | cons c s =>
      by_cases hc : c = '\n'
      · subst hc
        simp [List.isPrefixOf, Ne.symm h.1]
      · rw [firstLine_cons hc, List.isPrefixOf_cons_cons, List.isPrefixOf_cons_cons, ih h.2]

theorem prefix_firstLine_iff {part : Text} (h : '\n' ∉ part) {s : Text} : part <+: firstLine s ↔ part <+: s := by
  rw [← List.isPrefixOf_iff_prefix, ← List.isPrefixOf_iff_prefix, isPrefixOf_firstLine h]

/-- Behind a part without line breaks the first line goes on. -/
theorem firstLine_drop {n : Nat} {s : Text} (h : '\n' ∉ s.take n) : firstLine (s.drop n) = (firstLine s).drop n := by
  induction n generalizing s with
  | zero => rfl
  | succ n ih =>
    cases s with
    | nil => rfl
    | cons c s =>
      simp only [List.take_succ_cons, List.mem_cons, not_or] at h
      rw [List.drop_succ_cons, ih h.2, firstLine_cons (Ne.symm h.1), List.drop_succ_cons]

theorem head?_firstLine {c : Char} (hc : c ≠ '\n') (s : Text) : (firstLine s).head? = some c ↔ s.head? = some c := by
  cases s with
  | nil => rfl
  | cons d s =>
    by_cases hd : d = '\n'
    · subst hd
      simp [Ne.symm hc]
    · rw [firstLine_cons hd]; rfl

theorem quoted_firstLine (s : Text) : quoted (firstLine s) = quoted s := by
  have hv := takeWhile_firstLine (p := fun c => c != '"' && c != '\n') (by decide) s
  have hbreak : '\n' ∉ s.take (s.takeWhile fun c => c != '"' && c != '\n').length := by
    rw [take_length_takeWhile]
    exact (not_mem_takeWhile_bar '"' s).2
  unfold quoted
  simp only [hv, ← firstLine_drop hbreak, head?_firstLine (show '"' ≠ '\n' by decide)]

theorem quoted_length_le (s : Text) : (quoted s).2 ≤ s.length := by
  unfold quoted
  dsimp only
  generalize hv : s.takeWhile (fun c => c != '"' && c != '\n') = v
  have hlen : v.length ≤ s.length := hv ▸ (List.takeWhile_prefix _).length_le
  split
  · rename_i h
    have : s.drop v.length ≠ [] := fun e => by simp [e] at h
    rw [Ne, List.drop_eq_nil_iff] at this
    omega
  · exact hlen

/-- What stands between two quotes is read exactly. -/
theorem quoted_append {s : Text} (hq : '"' ∉ s) (hb : '\n' ∉ s) (rest : Text) :
    quoted (s ++ '"' :: rest) = (s, s.length + 1) := by
  have hv : (s ++ '"' :: rest).takeWhile (fun c => c != '"' && c != '\n') = s := takeWhile_append_bar hq hb rfl
  simp [quoted, hv]

/-- A string is the same, whatever follows, if it is closed or its line ends. -/
theorem quoted_append_of_mem {s : Text} (h : '"' ∈ s ∨ '\n' ∈ s) (u : Text) : quoted (s ++ u) = quoted s := by
  have hstop : (s.takeWhile fun c => c != '"' && c != '\n').length < s.length := by
    refine Nat.lt_of_le_of_ne (List.takeWhile_prefix _).length_le fun hlength => ?_
    have hself := (List.takeWhile_prefix fun c => c != '"' && c != '\n').eq_of_length hlength
    have hopen := not_mem_takeWhile_bar '"' s
    rw [hself] at hopen
    exact h.elim hopen.1 hopen.2
  have hvalue : (s ++ u).takeWhile (fun c => c != '"' && c != '\n') = s.takeWhile fun c => c != '"' && c != '\n' := by
    rw [List.takeWhile_append, if_neg (Nat.ne_of_lt hstop)]
  have hrest : s.drop (s.takeWhile fun c => c != '"' && c != '\n').length ≠ [] := by
    rw [Ne, List.drop_eq_nil_iff]
    omega
  obtain ⟨c, r, hr⟩ := List.exists_cons_of_ne_nil hrest
  unfold quoted
  dsimp only
  rw [hvalue, List.drop_append_of_le_length (Nat.le_of_lt hstop), hr]
  rfl

/-! ### All lines -/

theorem lines_break (s : Text) : lines ('\n' :: s) = [] :: lines s := by
  simp [lines, List.splitOn, List.splitOnP_cons_eq_if_modifyHead]

theorem lines_cons {c : Char} (h : c ≠ '\n') (s : Text) : lines (c :: s) = (lines s).modifyHead (c :: ·) := by
  simp [lines, List.splitOn, List.splitOnP_cons_eq_if_modifyHead, h]

theorem lines_ne_nil (s : Text) : lines s ≠ [] := List.splitOn_ne_nil '\n' s

theorem length_lines (s : Text) : (lines s).length = s.count '\n' + 1 := by
  induction s with
  | nil => rfl
  | cons c s ih =>
    by_cases hc : c = '\n'
    · rw [hc, lines_break, List.length_cons, ih, List.count_cons_self]
    · rw [lines_cons hc, List.length_modifyHead, ih, List.count_cons_of_ne hc]

theorem unlines_lines (s : Text) : unlines (lines s) = s := List.intercalate_splitOn '\n'

theorem break_not_mem_of_mem_lines {s l : Text} (h : l ∈ lines s) : '\n' ∉ l := by
  induction s generalizing l with
  | nil =>
    rw [lines, List.splitOn_nil, List.mem_singleton] at h
    simp [h]
  | cons c s ih =>
    by_cases hc : c = '\n'
    · rw [hc, lines_break, List.mem_cons] at h
      rcases h with rfl | h
      · exact List.not_mem_nil
      · exact ih h
    · rw [lines_cons hc] at h
      obtain ⟨m, ls, hls⟩ := List.exists_cons_of_ne_nil (lines_ne_nil s)
      rw [hls, List.modifyHead_cons, List.mem_cons] at h
      rcases h with rfl | h
      · have hm := ih (hls ▸ List.mem_cons_self)
        simp [Ne.symm hc, hm]
      · exact ih (hls ▸ List.mem_cons_of_mem m h)

/-! ### The order of texts -/

theorem le_refl (s : Text) : le s s = true := by
  induction s with
  | nil => rfl
  | cons c r ih => simp [le, ih]

theorem le_trans (r s t : Text) (hrs : le r s = true) (hst : le s t = true) : le r t = true := by
  induction r generalizing s t with
  | nil => rfl
  | cons c r ih =>
    cases s with
    | nil => cases hrs
    | cons d s =>
      cases t with
      | nil => cases hst
      | cons e t =>
        simp only [le, Bool.or_eq_true, Bool.and_eq_true, decide_eq_true_eq] at hrs hst ⊢
        rcases hrs with hrs | ⟨rfl, hrs⟩
        · rcases hst with hst | ⟨rfl, -⟩
          · exact Or.inl (Nat.lt_trans hrs hst)
          · exact Or.inl hrs
        · exact hst.imp_right fun h => ⟨h.1, ih s t hrs h.2⟩

theorem le_total (s t : Text) : le s t = true ∨ le t s = true := by
  induction s generalizing t with
  | nil => exact Or.inl rfl
  | cons c s ih =>
    cases t with
    | nil => exact Or.inr rfl
    | cons d t =>
      simp only [le, Bool.or_eq_true, Bool.and_eq_true, decide_eq_true_eq]
      rcases Nat.lt_trichotomy c.toNat d.toNat with hlt | heq | hgt
      · exact Or.inl (Or.inl hlt)
      · have hcd : c = d := Char.toNat_inj.1 heq
        exact (ih t).imp (fun h => Or.inr ⟨hcd, h⟩) fun h => Or.inr ⟨hcd.symm, h⟩
      · exact Or.inr (Or.inl hgt)

theorem le_antisymm (s t : Text) (hst : le s t = true) (hts : le t s = true) : s = t := by
  induction s generalizing t with
  | nil =>
    cases t with
    | nil => rfl
    | cons d t => cases hts
  | cons c s ih =>
    cases t with
    | nil => cases hst
    | cons d t =>
      simp only [le, Bool.or_eq_true, Bool.and_eq_true, decide_eq_true_eq] at hst hts
      rcases hst with hlt | ⟨rfl, hst⟩
      · rcases hts with hgt | ⟨rfl, -⟩
        · exact absurd hgt (Nat.lt_asymm hlt)
        · exact absurd hlt (Nat.lt_irrefl _)
      · have hts := hts.resolve_left (Nat.lt_irrefl _)
        rw [ih t hst hts.2]

/-! ### Words and lines put together -/

theorem unwords_cons (w : Text) (ws : List Text) : unwords (w :: ws) = w ++ ws.flatMap (' ' :: ·) := by
  induction ws generalizing w with
  | nil => simp [unwords]
  | cons v ws ih =>
    have h : unwords (w :: v :: ws) = w ++ ' ' :: unwords (v :: ws) := by
      simp [unwords, List.intercalate]
    rw [h, ih, List.flatMap_cons]
    rfl

theorem not_mem_unwords {c : Char} (hc : c ≠ ' ') {ws : List Text} (h : ∀ w ∈ ws, c ∉ w) : c ∉ unwords ws := by
  cases ws with
  | nil => exact List.not_mem_nil
  | cons w ws =>
    rw [unwords_cons, List.mem_append, not_or]
    refine ⟨h w List.mem_cons_self, ?_⟩
    intro hmem
    obtain ⟨v, hv, hb⟩ := List.mem_flatMap.1 hmem
    exact h v (List.mem_cons_of_mem w hv) ((List.mem_cons.1 hb).resolve_left hc)

/-! ### Blanks around a text -/

theorem trimEnd_of_getLast? {p : Char → Bool} {s : Text} (h : ∀ c ∈ s.getLast?, p c = false) : trimEnd p s = s := by
  unfold trimEnd
  cases hr : s.reverse with
  | nil => simpa using (List.reverse_eq_nil_iff.1 hr).symm
  | cons c r =>
    have hs : s = r.reverse ++ [c] := by
      rw [← List.reverse_reverse s, hr, List.reverse_cons]
    have hc := h c (by simp [hs])
    rw [List.dropWhile_cons, if_neg (by simp [hc]), hs, List.reverse_cons]

end DiagramText.Text

import DiagramText.Proofs.Sequence.Lexing
import DiagramText.Proofs.Sequence.Ranking
import DiagramText.Sequence.Statement

/-!
# Free text at the end of a line

A comment in free text begins where `%%` stands outside a string.  `uncomment` cuts a text there, without looking at
tokens, and this is what reading does, which drops the blanks around it, too (`freed`, `readText_unplaced`).  What is
read has no blanks around it, no line break and no comment in it (`isFree_freed`), so that reading it again changes
nothing.
-/

namespace DiagramText.Sequence

/-! ### Comments -/

/-- The text up to its first comment; `inside` says whether the text begins inside a string. -/
def uncommentFrom (inside : Bool) : Text → Text
  | [] => []
  | c :: r =>
    if inside = false ∧ c = '%' ∧ r.head? = some '%' then [] else c :: uncommentFrom (inside != (c == '"')) r

/-- The text up to its first comment. -/
def uncomment (s : Text) : Text := uncommentFrom false s

section

variable {inside : Bool} {s : Text}

theorem prefix_uncommentFrom (inside : Bool) (s : Text) : uncommentFrom inside s <+: s := by
  induction s generalizing inside with
  | nil => exact List.prefix_refl _
  | cons c s ih =>
    rw [uncommentFrom]
    split
    · exact List.nil_prefix
    · exact List.cons_prefix_cons.2 ⟨rfl, ih _⟩

/-- In front of a text without quotes and percent signs nothing is cut. -/
private theorem uncommentFrom_append {w : Text} (hw : ∀ c ∈ w, c ≠ '"' ∧ (c ≠ '%' ∨ inside = true)) (s : Text) :
    uncommentFrom inside (w ++ s) = w ++ uncommentFrom inside s := by
  induction w with
  | nil => rfl
  | cons c w ih =>
    rw [List.forall_mem_cons] at hw
    have hcut : ¬ (inside = false ∧ c = '%' ∧ (w ++ s).head? = some '%') := by
      rintro ⟨rfl, rfl, -⟩
      simpa using hw.1
    have hquote : (c == '"') = false := beq_false_of_ne hw.1.1
    rw [List.cons_append, uncommentFrom, if_neg hcut, hquote, Bool.bne_false, ih hw.2, List.cons_append]

theorem uncomment_append {w : Text} (hw : ∀ c ∈ w, c ≠ '"' ∧ c ≠ '%') (s : Text) :
    uncomment (w ++ s) = w ++ uncomment s :=
  uncommentFrom_append (fun c hc => ⟨(hw c hc).1, Or.inl (hw c hc).2⟩) s

/-- A text without quotes and percent signs behind another is cut as a whole, or not at all. -/
private theorem uncommentFrom_append_plain {r : Text} (hr : ∀ c ∈ r, c ≠ '"' ∧ c ≠ '%') (s : Text) :
    uncommentFrom inside (s ++ r) = uncommentFrom inside s ∨
      uncommentFrom inside s = s ∧ uncommentFrom inside (s ++ r) = s ++ r := by
  induction s generalizing inside with
  | nil =>
    have hall : uncommentFrom inside (r ++ []) = r ++ uncommentFrom inside [] :=
      uncommentFrom_append (fun c hc => ⟨(hr c hc).1, Or.inl (hr c hc).2⟩) []
    rw [List.append_nil] at hall
    exact Or.inr ⟨rfl, hall.trans (List.append_nil r)⟩
  | cons c s ih =>
    have hhead : (s ++ r).head? = some '%' ↔ s.head? = some '%' := by
      cases s with
      | nil =>
        refine ⟨fun hr' => absurd rfl (hr '%' (List.mem_of_mem_head? hr')).2, fun h => by cases h⟩
      | cons d s => rfl
    rw [List.cons_append, uncommentFrom, uncommentFrom]
    simp only [hhead]
    split
    · exact Or.inl rfl
    · exact ih.imp (congrArg (c :: ·)) fun h => ⟨congrArg (c :: ·) h.1, congrArg (c :: ·) h.2⟩

/-- A text stays if a longer one does. -/
theorem uncommentFrom_of_longer {t : Text} (h : uncommentFrom inside s = s) (ht : t <+: s) :
    uncommentFrom inside t = t := by
  induction t generalizing inside s with
  | nil => rfl
  | cons c t ih =>
    cases s with
    | nil => exact absurd (List.prefix_nil.1 ht) (List.cons_ne_nil _ _)
    | cons d s =>
      obtain ⟨rfl, hprefix⟩ := List.cons_prefix_cons.1 ht
      rw [uncommentFrom] at h ⊢
      split at h
      · cases h
      · rename_i hcut
        injection h with _ h
        rw [if_neg, ih h hprefix]
        rintro ⟨hinside, hc, hhead⟩
        refine hcut ⟨hinside, hc, ?_⟩
        obtain ⟨r, rfl⟩ := hprefix
        rw [List.head?_append, hhead]
        rfl

theorem uncommentFrom_uncommentFrom :
    uncommentFrom inside (uncommentFrom inside s) = uncommentFrom inside s := by
  induction s generalizing inside with
  | nil => rfl
  | cons c s ih =>
    by_cases hcut : inside = false ∧ c = '%' ∧ s.head? = some '%'
    · rw [uncommentFrom, if_pos hcut]
      rfl
    · rw [uncommentFrom, if_neg hcut, uncommentFrom, ih, if_neg]
      rintro ⟨hinside, hc, hhead⟩
      refine hcut ⟨hinside, hc, ?_⟩
      obtain ⟨r, hr⟩ := prefix_uncommentFrom (inside != (c == '"')) s
      rw [← hr, List.head?_append, hhead]
      rfl

/-- Blanks in front of a text are no part of a comment or a string. -/
private theorem uncomment_dropWhile (h : uncomment s = s) :
    uncomment (s.dropWhile Text.isBlank) = s.dropWhile Text.isBlank := by
  induction s with
  | nil => rfl
  | cons c s ih =>
    rw [List.dropWhile_cons]
    split
    · rename_i hc
      apply ih
      have hquote : (c == '"') = false := by
        apply beq_false_of_ne
        rintro rfl
        revert hc
        decide
      rw [uncomment, uncommentFrom, hquote] at h
      split at h
      · cases h
      · injection h
    · exact h

theorem uncomment_of_not_infix (h : ¬ ['%', '%'] <:+: s) : uncommentFrom inside s = s := by
  induction s generalizing inside with
  | nil => rfl
  | cons c s ih =>
    rw [uncommentFrom, if_neg, ih fun hs => h (hs.trans (List.suffix_cons c s).isInfix)]
    rintro ⟨-, rfl, hhead⟩
    cases s with
    | nil => cases hhead
    | cons d s =>
      cases hhead
      exact h ⟨[], s, rfl⟩

end

/-! ### Labels -/

/-- A text that stays as it is at the end of a line: no blanks around it, no line break in it, and no comment outside
its strings. -/
structure IsFree (s : Text) : Prop where
  stripped : Text.strip s = s
  one_line : '\n' ∉ s
  uncommented : uncomment s = s

instance (s : Text) : Decidable (IsFree s) :=
  decidable_of_iff (Text.strip s = s ∧ '\n' ∉ s ∧ uncomment s = s)
    ⟨fun h => ⟨h.1, h.2.1, h.2.2⟩, fun h => ⟨h.stripped, h.one_line, h.uncommented⟩⟩

theorem IsLabel.free {s : Text} (h : IsLabel s) : IsFree s :=
  ⟨h.stripped, h.one_line, uncomment_of_not_infix h.no_comment⟩

/-- What is read of a text at the end of a line. -/
def freed (s : Text) : Text := Text.strip (uncomment s)

theorem IsFree.freed {s : Text} (h : IsFree s) : freed s = s := by rw [Sequence.freed, h.uncommented, h.stripped]

/-- Blanks at the end do not matter: they are in the comment, or there is none. -/
theorem freed_stripEnd (s : Text) : freed (Text.stripEnd s) = freed s := by
  obtain ⟨r, hs, hr⟩ := Text.exists_trimEnd_append Text.isBlank s
  have hne : ∀ c ∈ r, c ≠ '"' ∧ c ≠ '%' := by
    intro c hc
    refine ⟨?_, ?_⟩ <;> rintro rfl <;> exact absurd (hr _ hc) (by decide)
  show Text.strip (uncomment (Text.trimEnd Text.isBlank s)) = Text.strip (uncomment s)
  rcases uncommentFrom_append_plain hne (Text.trimEnd Text.isBlank s) with h | ⟨h, h'⟩
  · rw [uncomment, uncomment, ← h, ← hs]
  · rw [← hs] at h'
    rw [uncomment, uncomment, h, h', ← Text.strip_append_blanks hr, ← hs]

/-- What is left of a line stays as it is. -/
theorem isFree_freed {s : Text} (h : '\n' ∉ s) : IsFree (freed s) where
  stripped := Text.strip_strip _
  one_line hmem := h ((prefix_uncommentFrom false s).subset (Text.mem_of_mem_strip hmem))
  uncommented := uncommentFrom_of_longer (uncomment_dropWhile uncommentFrom_uncommentFrom) (Text.prefix_trimEnd _ _)

/-! ### Tokens -/

/-- The text of a comment. -/
def Kind.comment? : Kind → Option Text
  | comment text => some text
  | _ => none

private theorem Kind.Plain.comment? {k : Kind} {rest : Text} (h : k.Plain rest) : k.comment? = none := by
  cases k with
  | comment text => exact absurd h id
  | _ => rfl

theorem uncomment_string {r : Text} (h : '\n' ∉ r) :
    uncomment ('"' :: r) = '"' :: r.take (Text.quoted r).2 ++ uncomment (r.drop (Text.quoted r).2) := by
  have hopen : uncomment ('"' :: r) = '"' :: uncommentFrom true r := rfl
  have hsplit : r = (Text.quoted r).1 ++ r.dropWhile fun c => c != '"' && c != '\n' :=
    List.takeWhile_append_dropWhile.symm
  have hmore : (Text.quoted r).2 = (Text.quoted r).1.length +
      if (r.dropWhile fun c => c != '"' && c != '\n').head? = some '"' then 1 else 0 := by
    rw [← Text.drop_length_takeWhile]
    rfl
  have hnext := List.head?_dropWhile_not (fun c => c != '"' && c != '\n') r
  have hvalue : ∀ c ∈ (Text.quoted r).1, c ≠ '"' ∧ (c ≠ '%' ∨ true = true) := by
    intro c hc
    refine ⟨?_, Or.inr rfl⟩
    rintro rfl
    exact (Text.isQuotable_iff.1 (Text.isQuotable_quoted r)).1 hc
  rw [hopen]
  generalize (Text.quoted r).1 = value at hsplit hmore hvalue
  generalize (r.dropWhile fun c => c != '"' && c != '\n') = rest at hsplit hmore hnext
  subst hsplit
  cases rest with
  | nil =>
    -- The string goes on to the end of the line.
    have hcut := uncommentFrom_append hvalue []
    simp only [List.append_nil] at hcut hmore ⊢
    simp [hcut, hmore, uncommentFrom, uncomment]
  | cons d rest =>
    have hd : d = '"' := by
      have hbreak : d ≠ '\n' := fun e => h (by simp [e])
      simpa [hbreak] using hnext
    subst hd
    rw [uncommentFrom_append hvalue]
    simp [hmore, uncommentFrom, uncomment, List.take_append, List.drop_append, List.take_of_length_le,
      List.drop_eq_nil_of_le]

/-- The first comment among the tokens of a line is what is behind its text without the comment. -/
private theorem uncomment_append_comment {s : Text} (h : '\n' ∉ s) :
    uncomment s ++ ((kinds rule s).findSome? Kind.comment?).getD [] = s := by
  fun_induction kinds rule s with
  | case1 => rfl
  | case2 c r found ih =>
    rw [List.mem_cons, not_or] at h
    have hrest := ih fun hm => h.2 (List.mem_of_mem_drop hm)
    cases hc : Text.isGap c with
    | true =>
      have hfound : found = ⟨none, 0⟩ := by simp [found, Rule.skippingGaps, hc]
      have hone : ∀ d ∈ [c], d ≠ '"' ∧ d ≠ '%' := by
        rw [List.forall_mem_singleton]
        refine ⟨?_, ?_⟩ <;> rintro rfl <;> exact absurd hc (by decide)
      rw [hfound] at hrest ⊢
      have hcut := uncomment_append hone r
      rw [List.singleton_append] at hcut
      rw [hcut]
      simpa using hrest
    | false =>
      have hfound : found = rule c r := by simp [found, Rule.skippingGaps, hc]
      have hcase := ruleCase c r
      rw [hfound] at hrest ⊢
      generalize rule c r = f at hrest hcase ⊢
      cases hcase with
      | newline hc => exact absurd hc.symm h.1
      | comment hc hr =>
        have hcut : uncomment (c :: r) = [] := by
          rw [uncomment, uncommentFrom, if_pos ⟨rfl, hc, hr⟩]
        rw [hcut, Text.firstLine_of_not_mem h.2]
        rfl
      | string hc =>
        subst hc
        dsimp only at hrest
        rw [uncomment_string h.2]
        simp only [Option.toList_some, List.findSome?_cons, Kind.comment?, List.cons_append, List.nil_append,
          List.append_assoc, hrest, List.take_append_drop]
      | @plain w rest k hr hw hk =>
        subst hr
        rw [List.drop_left] at hrest
        have hcut := uncomment_append hw rest
        rw [List.cons_append] at hcut
        rw [hcut]
        simp only [Option.toList_some, List.findSome?_cons, hk.comment?, List.cons_append, List.nil_append,
          List.append_assoc, List.drop_left, hrest]
      | nothing hquote hcomment =>
        have hcut : uncomment (c :: r) = c :: uncomment r := by
          rw [uncomment, uncommentFrom, if_neg fun hc => hcomment hc.2, beq_false_of_ne hquote]
          rfl
        rw [hcut]
        simpa using hrest

/-! ### Reading free text -/

/-- No tokens, or a line break and what follows. -/
def LineEnd (ks : List Kind) : Prop := ∀ k ∈ ks.head?, k = .newline

/-- The tokens of a text are those of its first line and what follows it. -/
theorem kinds_firstLine (s : Text) : ∃ rest, kinds rule s = kinds rule (Text.firstLine s) ++ rest ∧ LineEnd rest := by
  rcases Text.firstLine_cases s with h | ⟨r, h⟩
  · exact ⟨[], by rw [← h, List.append_nil], by simp [LineEnd]⟩
  · refine ⟨.newline :: kinds rule r, ?_, by simp [LineEnd]⟩
    rw [← rule_lineLocal.kinds_append_break, ← h]

private theorem takeWhile_line {ks rest : List Kind} (h : .newline ∉ ks) (hr : LineEnd rest) :
    (ks ++ rest).takeWhile (· != .newline) = ks ∧ (ks ++ rest).dropWhile (· != .newline) = rest := by
  have hks : ∀ k ∈ ks, (k != Kind.newline) = true := by
    intro k hk
    rw [bne_iff_ne]
    rintro rfl
    exact h hk
  have hrest : rest.takeWhile (· != .newline) = [] ∧ rest.dropWhile (· != .newline) = rest := by
    cases rest with
    | nil => exact ⟨rfl, rfl⟩
    | cons k rest =>
      rw [hr k rfl]
      exact ⟨rfl, rfl⟩
  rw [List.takeWhile_append_of_pos hks, List.dropWhile_append_of_pos hks, hrest.1, hrest.2, List.append_nil]
  exact ⟨rfl, rfl⟩

theorem lineComment_eq (ts : List (Token Kind)) : lineComment ts =
    (((ts.map Token.kind).takeWhile (· != .newline)).findSome? Kind.comment?).getD [] := by
  rw [List.takeWhile_map, List.findSome?_map]
  rfl

theorem map_kind_unplaced (ks : List Kind) : (unplaced ks).map Token.kind = ks := by
  rw [unplaced, List.map_map]
  exact List.map_id ks

/-- Free text is what stands on the line, without the comment and the blanks around it. -/
private theorem readText_kinds {s : Text} {ts : List (Token Kind)} {rest : List Kind} (h : '\n' ∉ s)
    (hts : ts.map Token.kind = kinds rule s ++ rest) (hr : LineEnd rest) :
    (readText s ts).1 = freed s := by
  have hcomment := uncomment_append_comment h
  have htext : s.take (s.length - (((kinds rule s).findSome? Kind.comment?).getD []).length) = uncomment s := by
    generalize ((kinds rule s).findSome? Kind.comment?).getD [] = text at hcomment ⊢
    generalize uncomment s = u at hcomment ⊢
    rw [← hcomment, List.length_append, Nat.add_sub_cancel, List.take_left]
  rw [readText, lineComment_eq, hts, (takeWhile_line (not_newline_of_mem_kinds h) hr).1, htext]
  rfl

/-- Free text behind a token of a text. -/
theorem readText_firstLine {s : Text} {ts : List (Token Kind)} (hts : ts.map Token.kind = kinds rule s) :
    (readText (Text.firstLine s) ts).1 = freed (Text.firstLine s) := by
  obtain ⟨rest, hkinds, hrest⟩ := kinds_firstLine s
  exact readText_kinds (Text.break_not_mem_firstLine s) (hts.trans hkinds) hrest

theorem readText_unplaced {s : Text} {rest : List Kind} (h : '\n' ∉ s) (hr : LineEnd rest) :
    readText s (unplaced (kinds rule s ++ rest)) = (freed s, unplaced rest) := by
  have hskip : skipLine (unplaced (kinds rule s ++ rest)) = unplaced rest := by
    have hdrop := (takeWhile_line (not_newline_of_mem_kinds h) hr).2
    rw [skipLine, skipTokens, unplaced, List.dropWhile_map]
    exact congrArg unplaced hdrop
  exact Prod.ext (readText_kinds h (map_kind_unplaced _) hr) hskip

/-! ### Names behind `as` -/

/-- What is read where a name stands behind `as`: the value if it is a string and nothing more, or else the free
text. -/
def reread (name : Text) : Text :=
  match kinds rule name with
  | [.string value] => value
  | _ => freed name

/-- The name that is read where a name stands behind `as`, if there is any. -/
def redisplay (name : Text) : Option Text := if reread name = [] then none else some (reread name)

theorem reread_of_ne_string {name : Text} (h : ∀ value, kinds rule name ≠ [.string value]) :
    reread name = freed name := by
  unfold reread
  split
  · rename_i value he
    exact absurd he (h value)
  · rfl

theorem IsDisplay.redisplay {name : Text} (h : IsDisplay name) : redisplay name = some name := by
  have hname : reread name = name := by
    rw [reread_of_ne_string, h.label.free.freed]
    intro value he
    exact not_string_of_mem_kinds h.unquoted value (he ▸ List.mem_singleton_self _)
  rw [Sequence.redisplay, hname, if_neg h.nonempty]

/-- A string that is followed by the end of the line is all that stands there. -/
private theorem eq_string_of_append {name value : Text} {rest tail : List Kind} (h : '\n' ∉ name) (hr : LineEnd rest)
    (htail : LineEnd tail) (he : kinds rule name ++ rest = .string value :: tail) :
    kinds rule name = [.string value] := by
  have hbreak := not_newline_of_mem_kinds h
  cases hk : kinds rule name with
  | nil =>
    rw [hk, List.nil_append] at he
    cases hr (.string value) (by rw [he]; rfl)
  | cons k ks =>
    rw [hk] at he hbreak
    injection he with hvalue hks
    cases ks with
    | nil => rw [hvalue]
    | cons k' ks =>
      have hnewline := htail k' (by rw [← hks]; rfl)
      exact absurd (hnewline ▸ List.mem_cons_of_mem _ List.mem_cons_self) hbreak

/-- A name behind `as` is read as `redisplay` says. -/
theorem readDisplay_unplaced {name : Text} {rest : List Kind} (h : '\n' ∉ name) (hr : LineEnd rest) :
    readDisplay (unplaced (.display (' ' :: name) :: kinds rule name ++ rest)) = (redisplay name, unplaced rest) := by
  by_cases hstring : ∃ value, kinds rule name = [.string value]
  · obtain ⟨value, hvalue⟩ := hstring
    rw [redisplay, reread, hvalue]
    cases rest with
    | nil => rfl
    | cons k rest =>
      rw [hr k rfl]
      rfl
  · have hname := reread_of_ne_string fun value he => hstring ⟨value, he⟩
    have htext : readText (' ' :: name) (unplaced (kinds rule name ++ rest)) = (reread name, unplaced rest) := by
      have hspace := readText_unplaced (s := ' ' :: name) (by simpa using h) hr
      rw [kinds_space] at hspace
      rw [hname]
      exact hspace
    rw [List.cons_append, unplaced_cons, readDisplay]
    · rw [htext]
      rfl
    · intro value place he
      have hkinds := congrArg (List.map Token.kind) he
      rw [map_kind_unplaced] at hkinds
      exact hstring ⟨value, eq_string_of_append h hr (by simp [LineEnd]) hkinds⟩
    · intro value place place' us he
      have hkinds := congrArg (List.map Token.kind) he
      rw [map_kind_unplaced] at hkinds
      exact hstring ⟨value, eq_string_of_append h hr (by simp [LineEnd]) hkinds⟩

end DiagramText.Sequence

import DiagramText.Proofs.Lexing
import DiagramText.Report

/-!
# Where tokens stand

Places are ordered as they are read, line by line.  The tokens of a text stand in this order, and the end of the text
comes last (`sorted_places_tokenize`); each of them is in a line of the text, or right behind it
(`within_of_mem_places`).  A reader passes some of the places that it comes by (`Passes`).  When readers take turns, the
places that they pass are places of the whole and keep its order (`Ascends`, `Passes.append`).
-/

namespace DiagramText

/-! ### The order of places -/

namespace Place

instance : LE Place := ⟨fun p q => p.line < q.line ∨ p.line = q.line ∧ p.column ≤ q.column⟩

theorem le_def {p q : Place} : p ≤ q ↔ p.line < q.line ∨ p.line = q.line ∧ p.column ≤ q.column := Iff.rfl

theorem le_refl (p : Place) : p ≤ p := Or.inr ⟨rfl, Nat.le_refl _⟩

theorem le_trans {p q r : Place} (h : p ≤ q) (h' : q ≤ r) : p ≤ r := by
  rw [le_def] at *
  omega

theorem le_step (p : Place) (c : Char) : p ≤ p.step c := by
  rw [le_def, step]
  split
  · exact Or.inl (Nat.lt_succ_self _)
  · exact Or.inr ⟨rfl, Nat.le_succ _⟩

theorem after_append (p : Place) (r s : Text) : p.after (r ++ s) = (p.after r).after s := List.foldl_append

theorem le_after (p : Place) (s : Text) : p ≤ p.after s := by
  induction s generalizing p with
  | nil => exact le_refl p
  | cons c s ih => exact le_trans (le_step p c) (ih (p.step c))

/-! ### Places in a text -/

/-- The place is in a line of the text, or right behind its last character. -/
structure Within (s : Text) (p : Place) : Prop where
  line_pos : 1 ≤ p.line
  line_le : p.line ≤ (Text.lines s).length
  column_pos : 1 ≤ p.column
  column_le : ∀ l, (Text.lines s)[p.line - 1]? = some l → p.column ≤ l.length + 1

/-- How far a part of a text leads: to one of its lines, and no farther than the end of the line. -/
private theorem line_after (p : Place) (r s : Text) :
    p.line ≤ (p.after r).line ∧ (1 ≤ p.column → 1 ≤ (p.after r).column) ∧
      ∃ l, (Text.lines (r ++ s))[(p.after r).line - p.line]? = some l ∧
        (p.after r).column ≤ (if (p.after r).line = p.line then p.column else 1) + l.length := by
  induction r generalizing p with
  | nil =>
    obtain ⟨l, ls, hls⟩ := List.exists_cons_of_ne_nil (List.splitOn_ne_nil '\n' s)
    refine ⟨Nat.le_refl _, id, l, ?_, ?_⟩
    · simp [after, Text.lines, hls]
    · simp [after]
  | cons c r ih =>
    have hafter : p.after (c :: r) = (p.step c).after r := rfl
    obtain ⟨hline, hcolumn, l, hl, hle⟩ := ih (p.step c)
    rw [hafter, List.cons_append]
    generalize (p.step c).after r = q at *
    by_cases hc : c = '\n'
    · have hstep : p.step c = ⟨p.line + 1, 1⟩ := if_pos hc
      rw [hstep] at hline hcolumn hl hle
      dsimp only at hline hcolumn hl hle
      have hindex : q.line - p.line = (q.line - (p.line + 1)) + 1 := by omega
      refine ⟨by omega, fun _ => hcolumn (Nat.le_refl _), l, ?_, ?_⟩
      · rw [hc, Text.lines_break, hindex, List.getElem?_cons_succ, hl]
      · rw [ite_self] at hle
        rwa [if_neg (by omega)]
    · have hstep : p.step c = ⟨p.line, p.column + 1⟩ := if_neg hc
      rw [hstep] at hline hcolumn hl hle
      dsimp only at hline hcolumn hl hle
      refine ⟨hline, fun _ => hcolumn (Nat.le_add_left _ _), ?_⟩
      rw [Text.lines_cons hc, List.getElem?_modifyHead, hl]
      by_cases hsame : q.line = p.line
      · rw [if_pos hsame] at hle ⊢
        refine ⟨c :: l, by simp [hsame], ?_⟩
        rw [List.length_cons]
        omega
      · rw [if_neg hsame] at hle ⊢
        exact ⟨l, by simp [Nat.sub_eq_zero_iff_le, Nat.not_le.2 (Nat.lt_of_le_of_ne hline (Ne.symm hsame))], hle⟩

/-- What begins a text leads to a place in it. -/
theorem within_after {r s : Text} (h : r <+: s) : (after {} r).Within s := by
  obtain ⟨t, rfl⟩ := h
  obtain ⟨hline, hcolumn, l, hl, hle⟩ := line_after {} r t
  have hlt := (List.getElem?_eq_some_iff.1 hl).1
  have hcolumn_le : (after {} r).column ≤ 1 + l.length := by
    rwa [ite_self] at hle
  dsimp only at hline hlt hl
  refine ⟨hline, by omega, hcolumn (Nat.le_refl _), ?_⟩
  intro l' hl'
  rw [hl] at hl'
  cases hl'
  omega

end Place

/-! ### The places of tokens -/

variable {κ : Type}

/-- The places of tokens, and of the end behind them. -/
def placesUntil (finish : Place) (ts : List (Token κ)) : List Place := ts.map Token.place ++ [finish]

/-- The places of the tokens of a text, and of its end. -/
def Tokens.places (cut : Tokens κ) : List Place := placesUntil cut.finish cut.tokens

private theorem after_advance (cur : Cursor) (n : Nat) :
    (cur.advance n).place.after (cur.advance n).rest = cur.place.after cur.rest := by
  rw [Cursor.place_advance, Cursor.rest_advance, ← Place.after_append, List.take_append_drop]

/-- A token stands behind some of what is left. -/
private theorem place_of_mem_tokensFrom (rule : Rule κ) (cur : Cursor) :
    ∀ t ∈ tokensFrom rule cur, ∃ r, r <+: cur.rest ∧ t.place = cur.place.after r := by
  have hlater : ∀ (cur : Cursor) (n : Nat) (p : Place),
      (∃ r, r <+: (cur.advance n).rest ∧ p = (cur.advance n).place.after r) →
        ∃ r, r <+: cur.rest ∧ p = cur.place.after r := by
    rintro cur n p ⟨r, ⟨r', hr⟩, rfl⟩
    rw [Cursor.rest_advance] at hr
    refine ⟨cur.rest.take n ++ r, ⟨r', ?_⟩, ?_⟩
    · rw [List.append_assoc, hr, List.take_append_drop]
    · rw [Cursor.place_advance, Place.after_append]
  fun_induction tokensFrom rule cur with
  | case1 => exact fun t ht => absurd ht List.not_mem_nil
  | case2 cur c r h found tail kind hkind ih =>
    intro t ht
    rcases List.mem_cons.1 ht with rfl | ht
    · exact ⟨[], List.nil_prefix, rfl⟩
    · exact hlater cur _ _ (ih t ht)
  | case3 cur c r h found tail hkind ih => exact fun t ht => hlater cur _ _ (ih t ht)

private theorem sorted_places_tokensFrom (rule : Rule κ) (cur : Cursor) :
    (placesUntil (cur.place.after cur.rest) (tokensFrom rule cur)).Pairwise (· ≤ ·) := by
  fun_induction tokensFrom rule cur with
  | case1 => exact List.pairwise_singleton _ _
  | case2 cur c r h found tail kind hkind ih =>
    rw [after_advance] at ih
    refine List.Pairwise.cons ?_ ih
    intro p hp
    rcases List.mem_append.1 hp with hp | hp
    · obtain ⟨t, ht, rfl⟩ := List.mem_map.1 hp
      obtain ⟨r', -, hplace⟩ := place_of_mem_tokensFrom rule (cur.advance (found.more + 1)) t ht
      rw [hplace, Cursor.place_advance]
      exact Place.le_trans (Place.le_after _ _) (Place.le_after _ _)
    · rw [List.mem_singleton.1 hp]
      exact Place.le_after _ _
  | case3 cur c r h found tail hkind ih =>
    rw [after_advance] at ih
    exact ih

/-- Tokens stand in order, and in front of the end of the text. -/
theorem sorted_places_tokenize (rule : Rule κ) (s : Text) : (tokenize rule s).places.Pairwise (· ≤ ·) :=
  sorted_places_tokensFrom rule.skippingGaps ⟨s, 0, {}⟩

/-- Tokens, and the end of the text, stand in the text. -/
theorem within_of_mem_places {rule : Rule κ} {s : Text} {p : Place} (h : p ∈ (tokenize rule s).places) :
    p.Within s := by
  rcases List.mem_append.1 h with h | h
  · obtain ⟨t, ht, rfl⟩ := List.mem_map.1 h
    obtain ⟨r, hr, hplace⟩ := place_of_mem_tokensFrom rule.skippingGaps ⟨s, 0, {}⟩ t ht
    rw [hplace]
    exact Place.within_after hr
  · rw [List.mem_singleton.1 h]
    exact Place.within_after (List.prefix_refl s)

/-! ### Readers on their way -/

/-- On the way from the tokens `ts` to those that it leaves, `us`, a reader passes the places `ps`: some of the tokens
that it takes up, and perhaps the place where it stops. -/
def Passes (finish : Place) (ts us : List (Token κ)) (ps : List Place) : Prop :=
  ∃ read, ts = read ++ us ∧ ps.Sublist (read.map Token.place ++ [startOf finish us])

/-- The places are among those of the tokens, and in the same order. -/
structure Ascends (finish : Place) (ts : List (Token κ)) (ps : List Place) : Prop where
  mem : ∀ p ∈ ps, p ∈ placesUntil finish ts
  sorted : (placesUntil finish ts).Pairwise (· ≤ ·) → ps.Pairwise (· ≤ ·)

section

variable {finish : Place} {ts us ts' : List (Token κ)} {t : Token κ} {ps qs : List Place}

namespace Passes

theorem nil (h : us <:+ ts) : Passes finish ts us [] := by
  obtain ⟨read, rfl⟩ := h
  exact ⟨read, rfl, List.nil_sublist _⟩

/-- The place where a reader stops. -/
theorem stop (h : us <:+ ts) : Passes finish ts us [startOf finish us] := by
  obtain ⟨read, rfl⟩ := h
  exact ⟨read, rfl, List.sublist_append_right _ _⟩

theorem of_suffix (h : Passes finish ts us ps) (hs : ts <:+ ts') : Passes finish ts' us ps := by
  obtain ⟨read, rfl, hps⟩ := h
  obtain ⟨before, rfl⟩ := hs
  refine ⟨before ++ read, (List.append_assoc _ _ _).symm, ?_⟩
  rw [List.map_append, List.append_assoc]
  exact hps.trans (List.sublist_append_right _ _)

theorem cons (h : Passes finish ts us ps) : Passes finish (t :: ts) us (t.place :: ps) := by
  obtain ⟨read, rfl, hps⟩ := h
  exact ⟨t :: read, rfl, hps.cons_cons _⟩

/-- The place of the first token. -/
theorem head (h : us <:+ ts) : Passes finish (t :: ts) us [t.place] := (nil h).cons

private theorem startOf_mem (finish : Place) (us : List (Token κ)) : startOf finish us ∈ placesUntil finish us := by
  cases us with
  | nil => exact List.mem_singleton_self _
  | cons t us => exact List.mem_cons_self

private theorem startOf_le (h : (placesUntil finish us).Pairwise (· ≤ ·)) {p : Place} (hp : p ∈ placesUntil finish us) :
    startOf finish us ≤ p := by
  cases us with
  | nil =>
    rw [List.mem_singleton.1 hp]
    exact Place.le_refl _
  | cons t us =>
    rcases List.mem_cons.1 hp with rfl | hp
    · exact Place.le_refl _
    · exact (List.pairwise_cons.1 h).1 p hp

/-- What comes behind a reader is behind all that it passes. -/
theorem append (h : Passes finish ts us ps) (h' : Ascends finish us qs) : Ascends finish ts (ps ++ qs) := by
  obtain ⟨read, rfl, hps⟩ := h
  have hplaces : placesUntil finish (read ++ us) = read.map Token.place ++ placesUntil finish us := by
    rw [placesUntil, placesUntil, List.map_append, List.append_assoc]
  constructor
  · intro p hp
    rw [hplaces, List.mem_append]
    rcases List.mem_append.1 hp with hp | hp
    · refine (List.mem_append.1 (hps.subset hp)).imp_right fun hstop => ?_
      rw [List.mem_singleton.1 hstop]
      exact startOf_mem finish us
    · exact Or.inr (h'.mem p hp)
  · rw [hplaces, List.pairwise_append]
    rintro ⟨hread, hrest, hbehind⟩
    refine List.pairwise_append.2 ⟨List.Pairwise.sublist hps ?_, h'.sorted hrest, ?_⟩
    · refine List.pairwise_append.2 ⟨hread, List.pairwise_singleton _ _, fun p hp q hq => ?_⟩
      rw [List.mem_singleton.1 hq]
      exact hbehind p hp _ (startOf_mem finish us)
    · intro p hp q hq
      have hq := h'.mem q hq
      rcases List.mem_append.1 (hps.subset hp) with hp | hp
      · exact hbehind p hp q hq
      · rw [List.mem_singleton.1 hp]
        exact startOf_le hrest hq

end Passes

namespace Ascends

theorem nil : Ascends finish ts [] := ⟨fun _ hp => absurd hp List.not_mem_nil, fun _ => List.Pairwise.nil⟩

theorem of_suffix (h : Ascends finish ts ps) (hs : ts <:+ ts') : Ascends finish ts' ps := (Passes.nil hs).append h

end Ascends

end

end DiagramText

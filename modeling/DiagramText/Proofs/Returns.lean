import DiagramText.Proofs.LineBreaks

/-!
# Returns at the ends of lines

A return in front of a line break stands between tokens, but what reaches to the end of its line takes it up.  A rule
is `Returnable` if nothing else happens: each token of a line is changed in its own way and stays where it is
(`Returnable.tokens_append_return`).  A reader that looks at tokens through a `View` does not see these changes, and it
sees a text line by line; so with returns at all of its line breaks it sees the same on the same lines
(`View.tokens_withReturns`).
-/

namespace DiagramText

namespace Text

/-- The text with a return in front of every line break. -/
def withReturns (s : Text) : Text := s.flatMap fun c => if c = '\n' then ['\r', '\n'] else [c]

theorem withReturns_of_not_mem {l : Text} (h : '\n' ∉ l) : withReturns l = l := by
  induction l with
  | nil => rfl
  | cons c l ih =>
    rw [List.mem_cons, not_or] at h
    have hl := ih h.2
    unfold withReturns at hl ⊢
    rw [List.flatMap_cons, hl, if_neg (Ne.symm h.1)]
    rfl

theorem withReturns_append_break {l : Text} (h : '\n' ∉ l) (s : Text) :
    withReturns (l ++ '\n' :: s) = (l ++ ['\r']) ++ '\n' :: withReturns s := by
  have hl := withReturns_of_not_mem h
  unfold withReturns at hl ⊢
  rw [List.flatMap_append, hl, List.append_assoc]
  rfl

/-- A text is a line, or a line and then a text behind a line break. -/
@[elab_as_elim]
theorem line_induction {motive : Text → Prop} (last : ∀ l, '\n' ∉ l → motive l)
    (line : ∀ l s, '\n' ∉ l → motive s → motive (l ++ '\n' :: s)) (s : Text) : motive s := by
  induction hn : s.length using Nat.strongRecOn generalizing s with
  | ind n ih =>
    subst hn
    have hbreak := break_not_mem_firstLine s
    rcases firstLine_cases s with hs | ⟨r, hs⟩
    · rw [hs]
      exact last _ hbreak
    · have hlength := congrArg List.length hs
      rw [List.length_append, List.length_cons] at hlength
      rw [hs]
      exact line _ r hbreak (ih _ (by omega) r rfl)

end Text

variable {κ : Type} {rule : Rule κ} {newline : κ} {string? : κ → Option Text} {g : κ → κ}

/-! ### Closed strings -/

/-- Every string of a text is closed by a quote on its line. -/
def ClosedStrings (rule : Rule κ) (string? : κ → Option Text) (s : Text) : Prop :=
  ∀ t ∈ stretchesFrom rule 0 s, ∀ value ∈ string? t.kind, t.part s = Text.quote value

namespace ClosedStrings

theorem append_break (hlocal : LineLocal rule newline) {a b : Text}
    (h : ClosedStrings rule string? (a ++ '\n' :: b)) :
    ClosedStrings rule string? a ∧ ClosedStrings rule string? b := by
  constructor
  · intro t ht value hvalue
    rw [← Stretch.part_append_of_le (hlocal.inside_of_mem_stretchesFrom ht).2 ('\n' :: b)]
    refine h t ?_ value hvalue
    rw [hlocal.stretchesFrom_append_break]
    exact List.mem_append_left _ ht
  · intro t ht value hvalue
    have hpart : (t.shift (a.length + 1)).part (a ++ '\n' :: b) = t.part b := by
      rw [Stretch.part_shift, ← List.drop_drop, List.drop_left, List.drop_succ_cons, List.drop_zero]
    rw [← hpart]
    refine h (t.shift (a.length + 1)) ?_ value hvalue
    rw [hlocal.stretchesFrom_append_break, Nat.zero_add, ← Nat.add_zero (a.length + 1), stretchesFrom_shift]
    exact List.mem_append_right _ (List.mem_cons_of_mem _ (List.mem_map_of_mem ht))

variable {c : Char} {r : Text}

theorem head (h : ClosedStrings rule string? (c :: r)) {k : κ} (hk : (rule.skippingGaps c r).kind = some k) :
    ∀ value ∈ string? k, (c :: r).take ((rule.skippingGaps c r).more + 1) = Text.quote value := by
  intro value hvalue
  refine h ⟨k, 0, (rule.skippingGaps c r).more + 1⟩ ?_ value hvalue
  rw [stretchesFrom_cons, hk]
  exact List.mem_append_left _ List.mem_cons_self

theorem tail (h : ClosedStrings rule string? (c :: r)) :
    ClosedStrings rule string? (r.drop (rule.skippingGaps c r).more) := by
  intro t ht value hvalue
  have hpart : (t.shift ((rule.skippingGaps c r).more + 1)).part (c :: r) =
      t.part (r.drop (rule.skippingGaps c r).more) := by
    rw [Stretch.part_shift, List.drop_succ_cons]
  rw [← hpart]
  refine h (t.shift _) ?_ value hvalue
  rw [stretchesFrom_cons, Nat.zero_add, ← Nat.add_zero ((rule.skippingGaps c r).more + 1), stretchesFrom_shift]
  exact List.mem_append_right _ (List.mem_map_of_mem ht)

end ClosedStrings

/-- A string that is closed has its quote on the rest of the line. -/
theorem quote_mem_of_closed {r value : Text} {n : Nat} (h : ('"' :: r).take (n + 1) = Text.quote value) : '"' ∈ r := by
  rw [List.take_succ_cons, Text.quote, List.cons_append, List.cons.injEq] at h
  refine List.mem_of_mem_take (i := n) ?_
  rw [h.2]
  exact List.mem_append_right _ List.mem_cons_self

/-! ### A return behind a line -/

/-- The token with another kind in its place. -/
def Token.recast (g : κ → κ) (t : Token κ) : Token κ := ⟨g t.kind, t.place⟩

/-- A return at the end of a line changes what the rule finds by `g`, and it is taken up only with all the rest of the
line.  A string that is not closed may do otherwise. -/
structure Returnable (rule : Rule κ) (string? : κ → Option Text) (g : κ → κ) : Prop where
  found : ∀ c r, c ≠ '\n' → '\n' ∉ r →
    (∀ k, (rule c r).kind = some k → ∀ value ∈ string? k, (c :: r).take ((rule c r).more + 1) = Text.quote value) →
    (rule c (r ++ ['\r'])).kind = (rule c r).kind.map g ∧
      ((rule c (r ++ ['\r'])).more = (rule c r).more ∨
        (rule c r).more = r.length ∧ (rule c (r ++ ['\r'])).more = r.length + 1)

namespace Returnable

/-- The tokens of a line begin where they began without the return. -/
private theorem stretchesFrom_append_return (h : Returnable rule string? g) (hlocal : LineLocal rule newline) {l : Text}
    (hl : '\n' ∉ l) (hclosed : ClosedStrings rule string? l) (n : Nat) :
    (stretchesFrom rule n (l ++ ['\r'])).map (fun t => (t.kind, t.start)) =
      (stretchesFrom rule n l).map fun t => (g t.kind, t.start) := by
  have hreturn : ∀ n, stretchesFrom rule n ['\r'] = [] := by
    intro n
    have hgap : rule.skippingGaps '\r' [] = ⟨none, 0⟩ := by
      rw [Rule.skippingGaps, if_pos (by decide)]
    rw [stretchesFrom_cons, hgap, List.drop_nil, stretchesFrom]
    rfl
  induction l using kinds.induct rule generalizing n with
  | case1 => rw [List.nil_append, hreturn, stretchesFrom]; rfl
  | case2 c r found ih =>
    rw [List.mem_cons, not_or] at hl
    have htail := ih (fun hmem => hl.2 (List.mem_of_mem_drop hmem)) hclosed.tail
    have hmore : found.more ≤ r.length := hlocal.skippingGaps_more_le c r
    have hfound : (rule.skippingGaps c (r ++ ['\r'])).kind = found.kind.map g ∧
        ((rule.skippingGaps c (r ++ ['\r'])).more = found.more ∨
          found.more = r.length ∧ (rule.skippingGaps c (r ++ ['\r'])).more = r.length + 1) := by
      have hhead := fun k => hclosed.head (k := k)
      simp only [found, Rule.skippingGaps] at hhead ⊢
      split
      · exact ⟨rfl, Or.inl rfl⟩
      · rename_i hgap
        simp only [hgap] at hhead
        exact h.found c r (Ne.symm hl.1) hl.2 hhead
    obtain ⟨hkind, hlength⟩ := hfound
    rw [List.cons_append, stretchesFrom_cons, stretchesFrom_cons, List.map_append, List.map_append, hkind, List.map_map,
      List.map_map]
    congr 1
    · cases found.kind <;> rfl
    · rcases hlength with hlength | ⟨hall, hlength⟩
      · rw [hlength, List.drop_append_of_le_length hmore]
        exact htail _
      · -- the return was taken up with the rest of the line
        rw [hlength, hall, List.drop_length, List.drop_eq_nil_of_le (by simp), stretchesFrom, stretchesFrom]
        rfl

theorem tokens_append_return (h : Returnable rule string? g) (hlocal : LineLocal rule newline) {l : Text}
    (hl : '\n' ∉ l) (hclosed : ClosedStrings rule string? l) :
    (tokenize rule (l ++ ['\r'])).tokens = (tokenize rule l).tokens.map (Token.recast g) := by
  have hplace : ∀ t ∈ stretchesFrom rule 0 l, placeAt (l ++ ['\r']) t.start = placeAt l t.start := by
    intro t ht
    have hinside := hlocal.inside_of_mem_stretchesFrom ht
    exact placeAt_append_of_le (by omega) _
  have hstretches := congrArg (List.map fun p : κ × Nat => (⟨p.1, placeAt (l ++ ['\r']) p.2⟩ : Token κ))
    (h.stretchesFrom_append_return hlocal hl hclosed 0)
  rw [List.map_map, List.map_map] at hstretches
  rw [tokens_tokenize, tokens_tokenize, List.map_map]
  refine hstretches.trans (List.map_congr_left fun t ht => ?_)
  show Token.mk (g t.kind) (placeAt (l ++ ['\r']) t.start) = ⟨g t.kind, placeAt l t.start⟩
  rw [hplace t ht]

end Returnable

/-- Only breaks are changed, and they remain breaks. -/
structure Mutes (isBreak : κ → Bool) (m : κ → κ) : Prop where
  isBreak_eq : ∀ k, isBreak (m k) = isBreak k
  eq_of_not_break : ∀ k, isBreak k = false → m k = k

theorem Mutes.skipTokens_recast {isBreak : κ → Bool} {m : κ → κ} (h : Mutes isBreak m) (ts : List (Token κ)) :
    skipTokens isBreak (ts.map (Token.recast m)) = (skipTokens isBreak ts).map (Token.recast m) := by
  unfold skipTokens
  rw [List.dropWhile_map]
  congr 2
  funext t
  exact h.isBreak_eq t.kind

/-- Behind breaks the next token is the same, if there is one. -/
theorem Mutes.heads {isBreak : κ → Bool} {m : κ → κ} (h : Mutes isBreak m) (ts : List (Token κ)) :
    skipTokens isBreak ts = [] ∧ skipTokens isBreak (ts.map (Token.recast m)) = [] ∨
      ∃ k p us, isBreak k = false ∧ skipTokens isBreak ts = ⟨k, p⟩ :: us ∧
        skipTokens isBreak (ts.map (Token.recast m)) = ⟨k, p⟩ :: us.map (Token.recast m) := by
  rw [h.skipTokens_recast]
  cases hts : skipTokens isBreak ts with
  | nil => exact Or.inl ⟨rfl, rfl⟩
  | cons t us =>
    have hk := not_of_skipTokens hts
    refine Or.inr ⟨t.kind, t.place, us, hk, rfl, ?_⟩
    rw [List.map_cons, Token.recast, h.eq_of_not_break _ hk]

/-! ### Views of tokens -/

/-- The beginning of the line of a place. -/
def Place.lineStart (p : Place) : Place := ⟨p.line, 1⟩

/-- A view of tokens in which `g` does not show.  What is seen of a line does not depend on other lines, and what is
seen of a token not on its place. -/
structure View (newline : κ) (g : κ → κ) (view : List (Token κ) → List (Token κ)) : Prop where
  append_break : ∀ ts p us, view (ts ++ ⟨newline, p⟩ :: us) = view ts ++ ⟨newline, p⟩ :: view us
  recast : ∀ ts, view (ts.map (Token.recast g)) = view ts
  move : ∀ f ts, view (ts.map (Token.move f)) = (view ts).map (Token.move f)

/-- A view of each token by itself. -/
theorem View.ofMap {m : κ → κ} (hnewline : m newline = newline) (hg : ∀ k, m (g k) = m k) :
    View newline g (List.map (Token.recast m)) where
  append_break ts p us := by rw [List.map_append, List.map_cons, Token.recast, hnewline]
  recast ts := by
    rw [List.map_map]
    refine List.map_congr_left fun t _ => ?_
    exact congrArg (Token.mk · t.place) (hg t.kind)
  move f ts := by
    rw [List.map_map, List.map_map]
    rfl

/-- With returns in front of all line breaks the same is seen of a text, on the same lines. -/
theorem View.tokens_withReturns {view : List (Token κ) → List (Token κ)} (hview : View newline g view)
    (hreturn : Returnable rule string? g) (hlocal : LineLocal rule newline) {s : Text}
    (hclosed : ClosedStrings rule string? s) :
    (view (tokenize rule s.withReturns).tokens).map (Token.move Place.lineStart) =
        (view (tokenize rule s).tokens).map (Token.move Place.lineStart) ∧
      (tokenize rule s.withReturns).finish.lineStart = (tokenize rule s).finish.lineStart := by
  have hdown : ∀ n (ts : List (Token κ)), (ts.map (Token.move (Place.down n))).map (Token.move Place.lineStart) =
      (ts.map (Token.move Place.lineStart)).map (Token.move (Place.down n)) := by
    intro n ts
    rw [List.map_map, List.map_map]
    rfl
  induction s using Text.line_induction with
  | last l hl =>
    rw [Text.withReturns_of_not_mem hl]
    exact ⟨rfl, rfl⟩
  | line l s hl ih =>
    obtain ⟨hline, hrest⟩ := ClosedStrings.append_break hlocal hclosed
    obtain ⟨htokens, hfinish⟩ := ih hrest
    have hlines : (Text.lines (l ++ ['\r'])).length = (Text.lines l).length := by
      rw [Text.length_lines, Text.length_lines, List.count_append]
      rfl
    have hbreak : (tokenize rule (l ++ ['\r'])).finish.lineStart = (tokenize rule l).finish.lineStart := by
      show (Place.after {} (l ++ ['\r'])).lineStart = _
      rw [Place.after_append]
      rfl
    rw [Text.withReturns_append_break hl, hlocal.tokenize_append_break, hlocal.tokenize_append_break, hlines]
    simp only [Tokens.join, hreturn.tokens_append_return hlocal hl hline, hview.append_break, hview.recast, hview.move,
      List.map_append, List.map_cons, hdown, htokens]
    refine ⟨?_, congrArg (Place.down (Text.lines l).length) hfinish⟩
    rw [Token.move, Token.move, hbreak]

end DiagramText

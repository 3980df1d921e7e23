import DiagramText.Proofs.Lexing

/-!
# Breaks that do not matter

Where a line ends does matter to a reader, but it does not matter whether idle lines follow, and the end of the text
ends a line, too.  Tokens are `Relaid` when they are moved about and breaks are left out behind a line break.  A reader
that looks at the next token finds the same one then, or finds that a line ends (`Relaid.heads`); and one that skips
breaks finds the same in any case (`Relaid.skip_heads`).  All tokens can be relaid so that no such break is left
(`relaid_squeeze`).
-/

namespace DiagramText

/-- The tokens of a dialect that are no part of its statements; one of them ends the lines. -/
structure Breaks (κ : Type) where
  isBreak : κ → Bool
  newline : κ
  isBreak_newline : isBreak newline = true

variable {κ : Type} {br : Breaks κ} {f : Place → Place} {behind : Bool} {ts us : List (Token κ)}

/-- The tokens that follow are the next line, or there are none. -/
def Breaks.Ends (br : Breaks κ) (ts : List (Token κ)) : Prop := ∀ t ∈ ts.head?, t.kind = br.newline

@[elab_as_elim]
theorem Breaks.Ends.elim {motive : List (Token κ) → Prop} (h : br.Ends ts) (nil : motive [])
    (newline : ∀ p us, motive (⟨br.newline, p⟩ :: us)) : motive ts := by
  rcases ts with _ | ⟨⟨k, p⟩, ts⟩
  · exact nil
  · obtain rfl : k = br.newline := h _ rfl
    exact newline p ts

/-- The second tokens are the first ones, moved by `f`, without some of the breaks that are `behind` a line break.  At
the end of the text the line break may go, too, if all places become one. -/
inductive Relaid (br : Breaks κ) (f : Place → Place) : (behind : Bool) → (ts us : List (Token κ)) → Prop where
  | nil {behind : Bool} : Relaid br f behind [] []
  | token {behind : Bool} {t : Token κ} {ts us : List (Token κ)} (hkind : t.kind ≠ br.newline)
    (hrest : Relaid br f false ts us) : Relaid br f behind (t :: ts) (t.move f :: us)
  | newline {behind : Bool} {t : Token κ} {ts us : List (Token κ)} (hkind : t.kind = br.newline)
    (hrest : Relaid br f true ts us) : Relaid br f behind (t :: ts) (t.move f :: us)
  | idle {t : Token κ} {ts us : List (Token κ)} (hkind : br.isBreak t.kind = true) (hrest : Relaid br f true ts us) :
    Relaid br f true (t :: ts) us
  | finish {behind : Bool} {t : Token κ} {ts : List (Token κ)} (hkind : t.kind = br.newline)
    (hf : ∀ p q, f p = f q) (hrest : Relaid br f true ts []) : Relaid br f behind (t :: ts) []

namespace Relaid

/-- Inside a line the next token is the same, unless the line ends. -/
theorem heads (h : Relaid br f false ts us) : br.Ends ts ∧ br.Ends us ∨
    ∃ k p ts' us', ts = ⟨k, p⟩ :: ts' ∧ us = ⟨k, f p⟩ :: us' ∧ k ≠ br.newline ∧ Relaid br f false ts' us' := by
  cases h with
  | nil => exact Or.inl ⟨by simp [Breaks.Ends], by simp [Breaks.Ends]⟩
  | token hkind hrest => exact Or.inr ⟨_, _, _, _, rfl, rfl, hkind, hrest⟩
  | newline hkind hrest => exact Or.inl ⟨by simpa [Breaks.Ends], by simpa [Breaks.Ends, Token.move]⟩
  | finish hkind hf hrest => exact Or.inl ⟨by simpa [Breaks.Ends], by simp [Breaks.Ends]⟩

/-- Behind breaks the next token is the same, if there is one. -/
theorem skip_heads (h : Relaid br f behind ts us) :
    skipTokens br.isBreak ts = [] ∧ skipTokens br.isBreak us = [] ∨
      ∃ k p ts' us', skipTokens br.isBreak ts = ⟨k, p⟩ :: ts' ∧ skipTokens br.isBreak us = ⟨k, f p⟩ :: us' ∧
        k ≠ br.newline ∧ Relaid br f false ts' us' := by
  induction h with
  | nil => exact Or.inl ⟨rfl, rfl⟩
  | @token behind t ts us hkind hrest ih =>
    by_cases hbreak : br.isBreak t.kind = true
    · rwa [skipTokens_of_pos hbreak, skipTokens_of_pos (t := t.move f) hbreak]
    · refine Or.inr ⟨t.kind, t.place, ts, us, ?_, ?_, hkind, hrest⟩
      · exact skipTokens_of_neg hbreak ts
      · exact skipTokens_of_neg (t := t.move f) hbreak us
  | @newline behind t ts us hkind hrest ih =>
    have hbreak : br.isBreak t.kind = true := hkind ▸ br.isBreak_newline
    rwa [skipTokens_of_pos hbreak, skipTokens_of_pos (t := t.move f) hbreak]
  | idle hkind hrest ih => rwa [skipTokens_of_pos hkind]
  | finish hkind hf hrest ih => rwa [skipTokens_of_pos (hkind ▸ br.isBreak_newline)]

theorem skip (h : Relaid br f behind ts us) :
    Relaid br f false (skipTokens br.isBreak ts) (skipTokens br.isBreak us) := by
  obtain ⟨hts, hus⟩ | ⟨k, p, ts', us', hts, hus, hkind, hrest⟩ := h.skip_heads
  · rw [hts, hus]
    exact nil
  · rw [hts, hus]
    exact token hkind hrest

theorem startOf (h : Relaid br f false ts us) (finish : Place) :
    DiagramText.startOf (f finish) us = f (DiagramText.startOf finish ts) := by
  cases h with
  | finish _ hf _ => exact hf _ _
  | _ => rfl

theorem map_move (br : Breaks κ) (f : Place → Place) (ts : List (Token κ)) (behind : Bool) :
    Relaid br f behind ts (ts.map (Token.move f)) := by
  induction ts generalizing behind with
  | nil => exact nil
  | cons t ts ih =>
    by_cases hkind : t.kind = br.newline
    · exact newline hkind (ih true)
    · exact token hkind (ih false)

end Relaid

/-! ### No idle breaks -/

section

variable [DecidableEq κ]

/-- The kinds of tokens without the breaks behind a line break, and without a line break at the end. -/
def Breaks.squeeze (br : Breaks κ) : (behind : Bool) → List κ → List κ
  | _, [] => []
  | behind, k :: ks =>
    if behind && br.isBreak k then squeeze br true ks
    else if k = br.newline then
      match squeeze br true ks with
      | [] => []
      | l :: ls => k :: l :: ls
    else k :: squeeze br false ks

theorem relaid_squeeze (br : Breaks κ) (ts : List (Token κ)) (behind : Bool) :
    Relaid br (fun _ => {}) behind ts (unplaced (br.squeeze behind (ts.map Token.kind))) := by
  induction ts generalizing behind with
  | nil => exact .nil
  | cons t ts ih =>
    rw [List.map_cons, Breaks.squeeze]
    split
    · rename_i hidle
      obtain ⟨rfl, hbreak⟩ := Bool.and_eq_true_iff.1 hidle
      exact .idle hbreak (ih true)
    · split
      · rename_i hkind
        have hrest := ih true
        split
        · rename_i hnil
          rw [hnil] at hrest
          exact .finish hkind (fun _ _ => rfl) hrest
        · rename_i l ls hls
          rw [hls] at hrest
          exact .newline hkind hrest
      · rename_i hkind
        exact .token hkind (ih false)

/-- What is squeezed to the same remains so behind any tokens. -/
private theorem squeeze_append {xs ys : List κ} (h : ∀ behind, br.squeeze behind xs = br.squeeze behind ys)
    (ks : List κ) (behind : Bool) : br.squeeze behind (ks ++ xs) = br.squeeze behind (ks ++ ys) := by
  induction ks generalizing behind with
  | nil => exact h behind
  | cons k ks ih => rw [List.cons_append, List.cons_append, Breaks.squeeze, Breaks.squeeze, ih true, ih false]

private theorem squeeze_breaks (row : List κ) (h : ∀ k ∈ row, br.isBreak k = true) (ks : List κ) :
    br.squeeze true (row ++ ks) = br.squeeze true ks := by
  induction row with
  | nil => rfl
  | cons k row ih =>
    rw [List.cons_append, Breaks.squeeze, if_pos (by simp [h k List.mem_cons_self]),
      ih fun l hl => h l (List.mem_cons_of_mem k hl)]

private theorem squeeze_newline (ks : List κ) : br.squeeze true (br.newline :: ks) = br.squeeze true ks :=
  squeeze_breaks [br.newline] (by simp [br.isBreak_newline]) ks

/-- A row of breaks behind a line break is squeezed away if the text ends there or another line follows. -/
private theorem squeeze_row {row ks : List κ} (hrow : ∀ k ∈ row, br.isBreak k = true)
    (hks : ks = [] ∨ ∃ ls, ks = br.newline :: ls) (behind : Bool) :
    br.squeeze behind (br.newline :: (row ++ ks)) = br.squeeze behind ks := by
  cases behind with
  | true => rw [squeeze_newline, squeeze_breaks row hrow]
  | false =>
    have hbehind : ∀ ks, br.squeeze false (br.newline :: ks) =
        match br.squeeze true ks with
        | [] => []
        | l :: ls => br.newline :: l :: ls := by
      intro ks
      simp [Breaks.squeeze]
    rcases hks with rfl | ⟨ls, rfl⟩
    · rw [hbehind, squeeze_breaks row hrow]
      rfl
    · rw [hbehind, hbehind, squeeze_breaks row hrow, squeeze_newline]

/-! ### Idle lines -/

variable {rule : Rule κ}

/-- A line of a text in which there is nothing but breaks does not matter, wherever it is. -/
theorem squeeze_kinds_insert (h : LineLocal rule br.newline) {before after : List Text} {l : Text}
    (hlines : ∀ x ∈ before ++ l :: after, '\n' ∉ x) (hne : before ++ after ≠ [])
    (hl : ∀ k ∈ kinds rule l, br.isBreak k = true) :
    br.squeeze true (kinds rule (Text.unlines (before ++ l :: after))) =
      br.squeeze true (kinds rule (Text.unlines (before ++ after))) := by
  let rows : List Text → List κ := fun ls => ls.flatMap fun x => br.newline :: kinds rule x
  have hrows : rows after = [] ∨ ∃ ls, rows after = br.newline :: ls := by
    cases after with
    | nil => exact Or.inl rfl
    | cons m ls => exact Or.inr ⟨_, rfl⟩
  have hlines' : ∀ x ∈ before ++ after, '\n' ∉ x := by
    intro x hx
    refine hlines x (List.mem_append.2 ?_)
    exact (List.mem_append.1 hx).imp_right (List.mem_cons_of_mem l)
  cases before with
  | nil =>
    obtain ⟨m, ls, rfl⟩ := List.exists_cons_of_ne_nil hne
    rw [List.nil_append, List.nil_append, h.kinds_unlines hlines, h.kinds_unlines hlines', squeeze_breaks _ hl]
    exact squeeze_newline _
  | cons m ls =>
    rw [List.cons_append] at hlines hlines'
    have hrow := squeeze_append (squeeze_row hl hrows) (kinds rule m ++ rows ls) true
    rw [List.append_assoc, List.append_assoc] at hrow
    rw [List.cons_append, List.cons_append, h.kinds_unlines hlines, h.kinds_unlines hlines', List.flatMap_append,
      List.flatMap_append, List.flatMap_cons]
    exact hrow

end

end DiagramText

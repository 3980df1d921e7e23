import DiagramText.Proofs.Sequence.Lines

/-!
# What a sequence text can hold

Statements are read in blocks that they fit (`fitting_document`).  However malformed a text is, what it calls a
participant can stand between quotes, and the free text of its lines has no blanks around it, no line break and no
comment (`clean_of_mem_document`): a token that free text follows carries just the text that the tokens behind it were
cut from (`Cut`).
-/

namespace DiagramText.Sequence

/-! ### Blocks -/

section

variable {inside : List BlockKind} (ts : List (Token Kind))

private theorem fits_readMark (keyword : Text) (place : Place) {mark : Text → Statement}
    (hmark : ∀ key, (mark key).Fits inside) : (readMark keyword place mark ts).1.Fits inside := by
  unfold readMark
  split
  · trivial
  · split
    · exact hmark _
    · trivial

private theorem fits_readMessage (source : Text) (place : Place) : (readMessage source place ts).1.Fits inside := by
  unfold readMessage
  split
  · split
    · trivial
    · split <;> trivial
  · trivial

/-- What is read can stand in the blocks in which it is read. -/
private theorem fits_readStatement (finish : Place) (inside : List BlockKind) (t : Token Kind) :
    (readStatement finish inside t ts).1.Fits inside := by
  unfold readStatement
  split
  · unfold readDeclaration
    split
    · trivial
    · split <;> trivial
  · unfold readNote
    dsimp only
    split <;> trivial
  · trivial
  · exact fits_readMark ts _ _ fun _ => trivial
  · exact fits_readMark ts _ _ fun _ => trivial
  · exact fits_readMessage ts _ _
  · exact fits_readMessage ts _ _
  · split
    · trivial
    · assumption
  · split
    · assumption
    · trivial
  · trivial

end

theorem fitting_statements (finish : Place) (inside : List BlockKind) (ts : List (Token Kind)) :
    Fitting inside (statements finish inside ts) := by
  fun_induction statements finish inside ts with
  | case1 => trivial
  | case2 inside t ts hbreak ih => exact ih
  | case3 inside t ts hbreak read ih => exact ⟨fits_readStatement ts finish inside t, ih⟩

/-- The statements of a text fit. -/
theorem fitting_document (cut : Tokens Kind) : Fitting [] (document cut) := by
  unfold document
  split <;> exact fitting_statements _ _ _

/-! ### Tokens of a text -/

/-- What a text can give to a token that has `rest` behind it. -/
def Kind.Clean (rest : Text) : Kind → Prop
  | word name => Text.isQuotable name = true
  | string value => Text.isQuotable value = true
  | colon behind | opening _ behind | branch behind | display behind => behind = Text.firstLine rest
  | _ => True

/-- Tokens that were cut from a text. -/
def Cut (ts : List (Token Kind)) : Prop := ∃ s, ts.map Token.kind = kinds rule s

theorem cut_tokenize (s : Text) : Cut (tokenize rule s).tokens := ⟨s, map_kind_tokenize rule s⟩

private theorem Kind.Plain.clean {k : Kind} {rest : Text} (h : k.Plain rest) : k.Clean rest := by
  cases k with
  | word name => exact Text.isQuotable_of_isWord h
  | string value => exact absurd h id
  | colon behind => exact h
  | opening kind behind => exact h
  | branch behind => exact h
  | display behind => exact h
  | _ => trivial

section

variable {ts us : List (Token Kind)}

/-- The tokens behind a token were cut from the text behind it. -/
theorem Cut.cons {t : Token Kind} (h : Cut (t :: ts)) :
    ∃ rest, ts.map Token.kind = kinds rule rest ∧ t.kind.Clean rest := by
  obtain ⟨s, hs⟩ := h
  obtain ⟨c, r, -, -, hk, hts⟩ := exists_rule_of_kinds_eq_cons hs.symm
  have hcase := ruleCase c r
  generalize rule c r = found at hcase hk hts
  refine ⟨_, hts, ?_⟩
  generalize t.kind = k at hk ⊢
  cases hcase with
  | newline hc =>
    cases hk
    trivial
  | comment hc hr =>
    cases hk
    trivial
  | string hc =>
    cases hk
    exact Text.isQuotable_quoted r
  | plain hr hw hplain =>
    cases hk
    subst hr
    rw [List.drop_left]
    exact hplain.clean
  | nothing hc hcomment => cases hk

theorem Cut.tail {t : Token Kind} (h : Cut (t :: ts)) : Cut ts := by
  obtain ⟨rest, hrest, -⟩ := h.cons
  exact ⟨rest, hrest⟩

theorem Cut.of_suffix (h : Cut ts) (hu : us <:+ ts) : Cut us := by
  obtain ⟨before, rfl⟩ := hu
  induction before with
  | nil => exact h
  | cons t before ih => exact ih h.tail

/-! ### Statements of a text -/

private theorem isFree_nil : IsFree [] := ⟨rfl, List.not_mem_nil, rfl⟩

private theorem isFree_readText {rest : Text} (h : ts.map Token.kind = kinds rule rest) :
    IsFree (readText (Text.firstLine rest) ts).1 := by
  rw [readText_firstLine h]
  exact isFree_freed (Text.break_not_mem_firstLine rest)

private theorem isFree_readColonText (h : Cut ts) : IsFree (readColonText ts).1 := by
  unfold readColonText
  split
  · rename_i behind place us
    obtain ⟨rest, hrest, hbehind⟩ := h.cons
    have hbehind : behind = Text.firstLine rest := hbehind
    rw [hbehind]
    exact isFree_readText hrest
  · exact isFree_nil

/-- A key can stand between quotes. -/
theorem isQuotable_of_key? {t : Token Kind} (h : Cut (t :: ts)) {key : Text} (hkey : t.kind.key? = some key) :
    Text.isQuotable key = true := by
  obtain ⟨rest, -, hclean⟩ := h.cons
  generalize t.kind = k at hkey hclean
  cases k with
  | word name =>
    cases hkey
    exact hclean
  | string value =>
    cases hkey
    exact hclean
  | _ => cases hkey

/-- The name that is read behind `as` takes one line and is not empty. -/
private theorem mem_readDisplay (h : Cut ts) : ∀ name ∈ (readDisplay ts).1, name ≠ [] ∧ '\n' ∉ name := by
  have hshown : ∀ {shown name : Text}, '\n' ∉ shown → name ∈ (if shown = [] then none else some shown) →
      name ≠ [] ∧ '\n' ∉ name := by
    intro shown name hshown hname
    split at hname
    · cases hname
    · rename_i hne
      cases hname
      exact ⟨hne, hshown⟩
  unfold readDisplay
  split
  · rename_i behind place us
    obtain ⟨rest, hrest, hbehind⟩ := h.cons
    have hbehind : behind = Text.firstLine rest := hbehind
    intro name hname
    dsimp only at hname
    split at hname
    · exact hshown (Text.isQuotable_iff.1 (isQuotable_of_key? h.tail rfl)).2 hname
    · exact hshown (Text.isQuotable_iff.1 (isQuotable_of_key? h.tail rfl)).2 hname
    · rw [hbehind] at hname
      exact hshown (isFree_readText hrest).one_line hname
  · simp

private theorem isQuotable_of_mem_readKeys (h : Cut ts) : ∀ key ∈ (readKeys ts).1, Text.isQuotable key = true := by
  fun_induction readKeys ts with
  | case1 t place us key hkey ih =>
    rw [List.forall_mem_cons]
    exact ⟨isQuotable_of_key? h hkey, ih h.tail.tail⟩
  | case3 t us hcomma key hkey =>
    rw [List.forall_mem_singleton]
    exact isQuotable_of_key? h hkey
  | _ => simp

end

/-- What a text can give to a statement. -/
def Statement.Clean : Statement → Prop
  | participant _ key display => Text.isQuotable key = true ∧ ∀ name ∈ display, name ≠ [] ∧ '\n' ∉ name
  | message source target _ label =>
    Text.isQuotable source = true ∧ Text.isQuotable target = true ∧ IsFree label
  | note _ keys text => keys ≠ [] ∧ (∀ key ∈ keys, Text.isQuotable key = true) ∧ IsFree text
  | opening _ label _ => IsFree label
  | branch label => IsFree label
  | activate key => Text.isQuotable key = true
  | deactivate key => Text.isQuotable key = true
  | _ => True

section

variable {ts : List (Token Kind)} {place : Place}

private theorem clean_readMark (h : Cut ts) (keyword : Text) {mark : Text → Statement}
    (hmark : ∀ key, Text.isQuotable key = true → (mark key).Clean) : (readMark keyword place mark ts).1.Clean := by
  unfold readMark
  split
  · trivial
  · split
    · rename_i key hkey
      exact hmark key (isQuotable_of_key? h hkey)
    · trivial

private theorem clean_readDeclaration (h : Cut ts) (kind : ParticipantKind) :
    (readDeclaration place kind ts).1.Clean := by
  unfold readDeclaration
  split
  · trivial
  · split
    · rename_i key hkey
      exact ⟨isQuotable_of_key? h hkey, mem_readDisplay h.tail⟩
    · trivial

private theorem clean_readMessage (h : Cut ts) {source : Text} (hs : Text.isQuotable source = true) :
    (readMessage source place ts).1.Clean := by
  unfold readMessage
  split
  · split
    · trivial
    · split
      · rename_i target htarget
        exact ⟨hs, isQuotable_of_key? h.tail htarget, isFree_readColonText h.tail.tail⟩
      · trivial
  · trivial

private theorem clean_readNote (h : Cut ts) : (readNote place ts).1.Clean := by
  have hkeys := h.of_suffix (readPosition_suffix ts)
  unfold readNote
  dsimp only
  split
  · trivial
  · rename_i hne
    exact ⟨hne, isQuotable_of_mem_readKeys hkeys, isFree_readColonText (hkeys.of_suffix (readKeys_suffix _))⟩

private theorem clean_readStatement {t : Token Kind} (h : Cut (t :: ts)) (inside : List BlockKind) :
    (readStatement place inside t ts).1.Clean := by
  obtain ⟨rest, hrest, hclean⟩ := h.cons
  have htail := h.tail
  unfold readStatement
  split
  · exact clean_readDeclaration htail _
  · exact clean_readNote htail
  · rename_i kind behind hk
    rw [hk] at hclean
    have hbehind : behind = Text.firstLine rest := hclean
    rw [hbehind]
    exact isFree_readText hrest
  · exact clean_readMark htail _ fun _ hkey => hkey
  · exact clean_readMark htail _ fun _ hkey => hkey
  · rename_i name hk
    rw [hk] at hclean
    exact clean_readMessage htail hclean
  · rename_i value hk
    rw [hk] at hclean
    exact clean_readMessage htail hclean
  · split <;> trivial
  · rename_i behind hk
    rw [hk] at hclean
    have hbehind : behind = Text.firstLine rest := hclean
    split
    · rw [hbehind]
      exact isFree_readText hrest
    · trivial
  · trivial

end

theorem clean_of_mem_statements {finish : Place} {inside : List BlockKind} {ts : List (Token Kind)} (h : Cut ts) :
    ∀ st ∈ statements finish inside ts, st.Clean := by
  fun_induction statements finish inside ts with
  | case1 => simp
  | case2 inside t ts hbreak ih => exact ih h.tail
  | case3 inside t ts hbreak read ih =>
    rw [List.forall_mem_cons]
    exact ⟨clean_readStatement h inside, ih (h.tail.of_suffix (readStatement_suffix finish inside t ts))⟩

/-- Whatever a text says can be written. -/
theorem clean_of_mem_document (s : Text) : ∀ st ∈ document (tokenize rule s), st.Clean := by
  have hcut := (cut_tokenize s).of_suffix (skipTokens_suffix Kind.isBreak _)
  unfold document
  split
  · rename_i place ts hts
    rw [hts] at hcut
    exact clean_of_mem_statements hcut.tail
  · exact clean_of_mem_statements hcut

end DiagramText.Sequence

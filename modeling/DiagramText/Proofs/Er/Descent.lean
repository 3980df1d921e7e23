import DiagramText.Proofs.Er.Places
import DiagramText.Proofs.Walk

/-!
# Recursive descent through an entity-relationship text

The statements of a text are read by a loop, and the block of an entity by a loop inside.  Neither of them has a
measure: each is told how many rounds it may take, and gives up with `none` where it would take more.  A block that is
not closed raises an error, which ends the reading of the whole text at once.

Every call comes back.  The inner loop takes up a token in each round, also where a type has no name (`entry_suffix`),
and it stops in front of the closing brace or at the end of the text (`exists_entries`).  So a statement is left behind,
or it raises an error at the end of the text (`exists_statement`), and nothing is given up when the reading ends:
what is found is all that the text says (`exists_document`).
-/

namespace DiagramText.Er

namespace Descent

/-- Reads what stands at the token `t` inside a block. -/
def entry (t : Token Kind) (ts : List (Token Kind)) : Option Entry × List (Token Kind) :=
  match t.kind with
  | .word type =>
    match ts with
    | ⟨.word name, _⟩ :: us =>
      let read := readAttribute type name us
      (some (.column read.1), read.2)
    | us => (some (.nameless type t.place), us)
  | _ => (none, ts)

/-- Reads entries one after the other, up to a closing brace, which is left. -/
def entries : Nat → List (Token Kind) → Option (List Entry × List (Token Kind))
  | 0, _ => none
  | n + 1, ts =>
    match skipBreaks ts with
    | [] => some ([], [])
    | t :: us =>
      if t.kind = .closeBrace then some ([], t :: us)
      else do
        let first := entry t us
        let more ← entries n first.2
        some (first.1.toList ++ more.1, more.2)

/-- Reads the statement that begins with the token `t`. -/
def statement (n : Nat) (t : Token Kind) (ts : List (Token Kind)) : Option (Statement × Ending Kind) :=
  match t.kind with
  | .word name =>
    match skipBreaks ts with
    | ⟨.openBrace, _⟩ :: us => do
      let inner ← entries n us
      match inner.2 with
      | ⟨.closeBrace, _⟩ :: vs => some (.block name inner.1 true, .returned vs)
      | vs => some (.block name inner.1 false, .raised vs)
    | _ =>
      let read := readStatement name ts
      some (read.1, .returned read.2)
  | kind => some (.skipped kind.name t.place, .returned ts)

/-- Reads statements one after the other, up to an error or the end of the text. -/
def body : Nat → List (Token Kind) → Option (List Statement × Ending Kind)
  | 0, _ => none
  | n + 1, ts =>
    match skipBreaks ts with
    | [] => some ([], .returned [])
    | t :: us => do
      let first ← statement n t us
      match first.2 with
      | .raised vs => some ([first.1], .raised vs)
      | .returned vs =>
        let more ← body n vs
        some (first.1 :: more.1, more.2)

/-- Reads a whole text, like `Er.document`, and says how that ends. -/
def document (n : Nat) (ts : List (Token Kind)) : Option (List Statement × Ending Kind) :=
  match skipBreaks ts with
  | ⟨.header, _⟩ :: ts => body n ts
  | ts => body n ts

variable {k : Nat} {t : Token Kind} {ts us vs : List (Token Kind)} {es : List Entry} {st : Statement}
  {sts : List Statement} {e : Ending Kind}

/-! ### One call -/

theorem entry_suffix (t : Token Kind) (ts : List (Token Kind)) : (entry t ts).2 <:+ ts := by
  unfold entry
  split
  · split
    · rename_i type _ _ name _ us
      exact (readAttribute_suffix type name us).trans (List.suffix_cons _ _)
    · exact List.suffix_refl _
  · exact List.suffix_refl _

theorem entries_nil (hskip : skipBreaks ts = []) : ComesBack (entries · ts) 1 ([], []) := by
  refine ComesBack.step fun n _ => ?_
  rw [entries, hskip]

theorem entries_stop {place : Place} (hskip : skipBreaks ts = ⟨.closeBrace, place⟩ :: us) :
    ComesBack (entries · ts) 1 ([], ⟨.closeBrace, place⟩ :: us) := by
  refine ComesBack.step fun n _ => ?_
  rw [entries, hskip]
  exact if_pos rfl

theorem entries_step (hskip : skipBreaks ts = t :: us) (hgo : t.kind ≠ .closeBrace)
    (hmore : ComesBack (entries · (entry t us).2) k (es, vs)) :
    ComesBack (entries · ts) (k + 1) ((entry t us).1.toList ++ es, vs) := by
  refine ComesBack.step fun n hn => ?_
  rw [entries, hskip]
  simp only [if_neg hgo, hmore n hn, Option.bind_eq_bind, Option.bind_some]

theorem statement_block {name : Text} {place brace : Place} (hskip : skipBreaks ts = ⟨.openBrace, brace⟩ :: us)
    {close : Place} (hentries : ComesBack (entries · us) k (es, ⟨.closeBrace, close⟩ :: vs)) :
    ComesBack (statement · ⟨.word name, place⟩ ts) k (.block name es true, .returned vs) := by
  intro n hn
  unfold statement
  simp only [hskip, hentries n hn, Option.bind_eq_bind, Option.bind_some]

theorem statement_raise {name : Text} {place brace : Place} (hskip : skipBreaks ts = ⟨.openBrace, brace⟩ :: us)
    (hentries : ComesBack (entries · us) k (es, [])) :
    ComesBack (statement · ⟨.word name, place⟩ ts) k (.block name es false, .raised []) := by
  intro n hn
  unfold statement
  simp only [hskip, hentries n hn, Option.bind_eq_bind, Option.bind_some]

theorem statement_flat (name : Text) (place : Place) (h : ∀ brace us, skipBreaks ts ≠ ⟨.openBrace, brace⟩ :: us) :
    ComesBack (statement · ⟨.word name, place⟩ ts) 0
      ((readStatement name ts).1, .returned (readStatement name ts).2) := by
  intro n _
  unfold statement
  dsimp only
  split
  · exact absurd ‹_› (h _ _)
  · rfl

theorem body_nil (hskip : skipBreaks ts = []) : ComesBack (body · ts) 1 ([], .returned []) := by
  refine ComesBack.step fun n _ => ?_
  rw [body, hskip]

theorem body_raise (hskip : skipBreaks ts = t :: us) (hfirst : ComesBack (statement · t us) k (st, .raised vs)) :
    ComesBack (body · ts) (k + 1) ([st], .raised vs) := by
  refine ComesBack.step fun n hn => ?_
  rw [body, hskip]
  simp only [hfirst n hn, Option.bind_eq_bind, Option.bind_some]

theorem body_step (hskip : skipBreaks ts = t :: us) (hfirst : ComesBack (statement · t us) k (st, .returned vs))
    (hmore : ComesBack (body · vs) k (sts, e)) : ComesBack (body · ts) (k + 1) (st :: sts, e) := by
  refine ComesBack.step fun n hn => ?_
  rw [body, hskip]
  simp only [hfirst n hn, hmore n hn, Option.bind_eq_bind, Option.bind_some]

/-! ### Every call comes back -/

/-- What stands at a token comes first in a block, and what is left is read like a block. -/
theorem readBlock_entry (hbreak : t.kind.isBreak = false) (hgo : t.kind ≠ .closeBrace) (ts : List (Token Kind)) :
    (readBlock (t :: ts)).entries = (entry t ts).1.toList ++ (readBlock (entry t ts).2).entries ∧
      (readBlock (t :: ts)).closed = (readBlock (entry t ts).2).closed ∧
      (readBlock (t :: ts)).rest = (readBlock (entry t ts).2).rest := by
  obtain ⟨k, place⟩ := t
  cases k with
  | closeBrace => exact absurd rfl hgo
  | newline => cases hbreak
  | comment text => cases hbreak
  | word type =>
    by_cases hname : ∃ name p us, ts = ⟨.word name, p⟩ :: us
    · obtain ⟨name, p, us, rfl⟩ := hname
      rw [readBlock]
      exact ⟨rfl, rfl, rfl⟩
    · have hnone : ∀ name p us, ts ≠ ⟨.word name, p⟩ :: us := fun name p us he => hname ⟨name, p, us, he⟩
      have hentry : entry ⟨.word type, place⟩ ts = (some (.nameless type place), ts) := by
        unfold entry
        dsimp only
        split
        · exact absurd rfl (hnone _ _ _)
        · rfl
      rw [readBlock_nameless type place hnone, hentry]
      exact ⟨rfl, rfl, rfl⟩
  | _ => rw [readBlock] <;> first | exact ⟨rfl, rfl, rfl⟩ | simp

/-- The loop over entries comes back with the entries of the block, in front of its closing brace or at the end of the
text. -/
theorem exists_entries (ts : List (Token Kind)) :
    ∃ us, ComesBack (entries · ts) (ts.length + 1) ((readBlock ts).entries, us) ∧ us <:+ ts ∧
      ((us = [] ∧ (readBlock ts).closed = false ∧ (readBlock ts).rest = []) ∨
        ∃ close, us = ⟨.closeBrace, close⟩ :: (readBlock ts).rest ∧ (readBlock ts).closed = true) := by
  induction hn : ts.length using Nat.strongRecOn generalizing ts with
  | ind n ih =>
    subst hn
    have hskipped : skipBreaks ts <:+ ts := skipTokens_suffix _ ts
    rw [← readBlock_skipBreaks]
    cases hskip : skipBreaks ts with
    | nil =>
      rw [readBlock]
      exact ⟨[], (entries_nil hskip).mono (by omega), List.nil_suffix, Or.inl ⟨rfl, rfl, rfl⟩⟩
    | cons t us =>
      rw [hskip] at hskipped
      by_cases hclose : t.kind = .closeBrace
      · obtain ⟨k, close⟩ := t
        obtain rfl : k = .closeBrace := hclose
        rw [readBlock]
        exact ⟨_, (entries_stop hskip).mono (by omega), hskipped, Or.inr ⟨close, rfl, rfl⟩⟩
      · have hlt : us.length < ts.length := length_of_skipTokens hskip
        have hentry := entry_suffix t us
        have hle := hentry.length_le
        obtain ⟨vs, hmore, hvs, hend⟩ := ih _ (by omega) (entry t us).2 rfl
        obtain ⟨hentries, hclosed, hrest⟩ := readBlock_entry (not_of_skipTokens hskip) hclose us
        rw [hentries, hclosed, hrest]
        have hbehind : vs <:+ ts := hvs.trans (hentry.trans ((List.suffix_cons t us).trans hskipped))
        exact ⟨vs, (entries_step hskip hclose hmore).mono (by omega), hbehind, hend⟩

/-- The reader of a statement comes back, and the token that it stood at is behind it, or it raises an error at the end
of the text. -/
theorem exists_statement (h : t.kind.isBreak = false) (ts : List (Token Kind)) :
    ∃ st e, ComesBack (statement · t ts) (ts.length + 1) (st, e) ∧
      ((∃ us, e = .returned us ∧ us <:+ ts) ∨ e = .raised []) ∧ Walk statements statements (t :: ts) [st] e.rest := by
  obtain ⟨k, place⟩ := t
  cases k with
  | newline => cases h
  | comment text => cases h
  | word name =>
    have hstatements : statements (⟨.word name, place⟩ :: ts) =
        (readStatement name ts).1 :: statements (readStatement name ts).2 := by rw [statements]
    by_cases hopen : ∃ brace us, skipBreaks ts = ⟨.openBrace, brace⟩ :: us
    · obtain ⟨brace, us, hskip⟩ := hopen
      have hread : readStatement name ts =
          (.block name (readBlock us).entries (readBlock us).closed, (readBlock us).rest) := by
        rw [readStatement, hskip]
      rw [hread] at hstatements
      have hlt : us.length < ts.length := length_of_skipTokens hskip
      obtain ⟨vs, hentries, hvs, hend⟩ := exists_entries us
      rcases hend with ⟨rfl, hclosed, hrest⟩ | ⟨close, rfl, hclosed⟩
      · rw [hclosed, hrest] at hstatements
        exact ⟨_, _, (statement_raise hskip hentries).mono (by omega), Or.inr rfl, List.nil_suffix, hstatements⟩
      · rw [hclosed] at hstatements
        have hbehind : (readBlock us).rest <:+ ts :=
          (List.suffix_cons _ _).trans (hvs.trans (suffix_of_skipTokens hskip))
        exact ⟨_, _, (statement_block hskip hentries).mono (by omega), Or.inl ⟨_, rfl, hbehind⟩,
          hbehind.trans (List.suffix_cons _ _), hstatements⟩
    · have hbehind := readStatement_suffix name ts
      have hflat := statement_flat name place fun brace us hskip => hopen ⟨brace, us, hskip⟩
      exact ⟨_, _, hflat.mono (Nat.zero_le _), Or.inl ⟨_, rfl, hbehind⟩, hbehind.trans (List.suffix_cons _ _),
        hstatements⟩
  | _ =>
    refine ⟨_, _, fun _ _ => rfl, Or.inl ⟨ts, rfl, List.suffix_refl ts⟩, List.suffix_cons _ _, ?_⟩
    rw [statements] <;> first | rfl | simp

/-- The loop over statements comes back at the end of the text. -/
theorem exists_body (ts : List (Token Kind)) :
    ∃ e, ComesBack (body · ts) (ts.length + 1) (statements ts, e) ∧ e.rest = [] := by
  induction hn : ts.length using Nat.strongRecOn generalizing ts with
  | ind n ih =>
    subst hn
    have hnil : statements [] = [] := by rw [statements]
    rw [← statements_skipBreaks]
    cases hskip : skipBreaks ts with
    | nil =>
      rw [hnil]
      exact ⟨.returned [], (body_nil hskip).mono (by omega), rfl⟩
    | cons t us =>
      have hlt : us.length < ts.length := length_of_skipTokens hskip
      obtain ⟨st, e, hfirst, hend, hwalk⟩ := exists_statement (not_of_skipTokens hskip) us
      rw [hwalk.eq]
      rcases hend with ⟨vs, rfl, hvs⟩ | rfl
      · have hle := hvs.length_le
        obtain ⟨e', hmore, hrest⟩ := ih vs.length (by omega) vs rfl
        have hstep := body_step hskip hfirst (hmore.mono (by omega))
        exact ⟨e', hstep.mono (by omega), hrest⟩
      · refine ⟨.raised [], ?_, rfl⟩
        rw [Ending.rest, hnil]
        exact (body_raise hskip hfirst).mono (by omega)

/-- Reading a text is reading the statements behind its header, if it has one. -/
private theorem document_start (ts : List (Token Kind)) :
    ∃ us, us.length ≤ ts.length ∧ (∀ n, document n ts = body n us) ∧ Er.document ts = statements us := by
  by_cases hheader : ∃ place us, skipBreaks ts = ⟨.header, place⟩ :: us
  · obtain ⟨place, us, hskip⟩ := hheader
    have hlt : us.length < ts.length := length_of_skipTokens hskip
    exact ⟨us, Nat.le_of_lt hlt, fun n => by rw [document, hskip], by rw [Er.document, hskip]⟩
  · refine ⟨skipBreaks ts, (skipTokens_suffix _ ts).length_le, fun n => ?_, ?_⟩
    · unfold document
      split
      · exact absurd ⟨_, _, ‹_›⟩ hheader
      · rfl
    · unfold Er.document
      split
      · exact absurd ⟨_, _, ‹_›⟩ hheader
      · rfl

/-- A text is read to its end, also if an error is raised, and what is found is all that it says. -/
theorem exists_document (ts : List (Token Kind)) :
    ∃ e, ComesBack (document · ts) (ts.length + 1) (Er.document ts, e) ∧ e.rest = [] := by
  obtain ⟨us, hle, hdescent, hflat⟩ := document_start ts
  obtain ⟨e, hbody, hrest⟩ := exists_body us
  simp only [hdescent, hflat]
  exact ⟨e, hbody.mono (Nat.succ_le_succ hle), hrest⟩

/-- The readers of a text come back from each place of it and read it to its end. -/
structure Finishes (s : Text) : Prop where
  /-- From every token that is no break the reader of a statement comes back with that token behind it, or it raises an
  error at the end of the text. -/
  statement : ∀ t ts, t :: ts <:+ (tokenize rule s).tokens → t.kind.isBreak = false →
    ∃ st e, ComesBack (statement · t ts) (ts.length + 1) (st, e) ∧
      ((∃ us, e = .returned us ∧ us <:+ ts) ∨ e = .raised [])
  /-- The reader of the text comes back with all that the text says, and no token is left. -/
  document : ∃ e, ComesBack (document · (tokenize rule s).tokens) ((tokenize rule s).tokens.length + 1)
    (Er.document (tokenize rule s).tokens, e) ∧ e.rest = []

/-- An entity-relationship text has no depth, and all its readers finish. -/
theorem finishes (s : Text) : Finishes s where
  statement t ts _ hbreak := by
    obtain ⟨st, e, hstatement, hend, -⟩ := exists_statement hbreak ts
    exact ⟨st, e, hstatement, hend⟩
  document := exists_document _

end Descent

end DiagramText.Er

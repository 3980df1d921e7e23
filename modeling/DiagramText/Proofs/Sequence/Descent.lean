import DiagramText.Proofs.Sequence.Places
import DiagramText.Proofs.Walk

/-!
# Recursive descent through a sequence text

`statements` reads a text as one flat list and keeps a stack of the blocks that are open.  Here a block is read as a
whole and only the number of the open blocks is kept: the reader of a statement calls the reader of a block, this calls
a loop over the statements inside for each branch, and the loop calls the reader of a statement.  None of them has a
measure: each is told how deep calls and rounds may stand inside each other, and gives up with `none` where they would
go deeper.  At a block for which the stack has no room an error is raised.

Every call comes back (`exists_body`): the reader of a statement takes up the token that it stands at, also where it
finds a fault or skips the line, and the loop stops only in front of a word that ends the branch, or at the end of the
text, unless an error is raised.  So a text in which the blocks that are open at once have room is read to its end, and
another one up to the first block that is too many; what is found is what the flat list holds there (`exists_document`).
-/

namespace DiagramText.Sequence

namespace Descent

/-- The tokens that end the statements inside a block of this kind; outside all blocks there are none. -/
def ends : Option BlockKind → Kind → Bool
  | some _, .closing => true
  | some .alt, .branch _ => true
  | _, _ => false

/-- The tokens that are left behind the word of a block for which the stack has no room. -/
def left (stack : Stack) (ts : List (Token Kind)) : List (Token Kind) := if stack.titled then skipLine ts else ts

section

variable (stack : Stack) (finish : Place)

mutual

/-- Reads the statement that begins with the token `t`, with all that stands inside if it opens a block, where `depth`
blocks are open.  The words `end` and `else` begin no statement. -/
def statement : Nat → Nat → Token Kind → List (Token Kind) → Option (List Statement × Ending Kind)
  | 0, _, _, _ => none
  | n + 1, depth, t, ts =>
    let read := readStatement finish [] t ts
    match t.kind with
    | .opening kind _ =>
      if stack.blocks ≤ depth then some ([], .raised (left stack ts))
      else do
        let inner ← block n (depth + 1) kind read.2
        some (read.1 :: inner.1, inner.2)
    | _ => some ([read.1], .returned read.2)

/-- Reads what stands inside a block, branch by branch, and its end; the block is one of `depth` that are open. -/
def block : Nat → Nat → BlockKind → List (Token Kind) → Option (List Statement × Ending Kind)
  | 0, _, _, _ => none
  | n + 1, depth, kind, ts => do
    let inner ← body n depth (some kind) ts
    match inner.2 with
    | .returned (⟨.branch behind, _⟩ :: us) =>
      let label := readText behind us
      let more ← block n depth kind label.2
      some (inner.1 ++ .branch label.1 :: more.1, more.2)
    | .returned (⟨.closing, _⟩ :: us) => some (inner.1 ++ [.closing], .returned us)
    -- the end of the text closes the block, too
    | e => some (inner.1, e)

/-- Reads statements one after the other, up to a token that ends those `inside` a block. -/
def body : Nat → Nat → Option BlockKind → List (Token Kind) → Option (List Statement × Ending Kind)
  | 0, _, _, _ => none
  | n + 1, depth, inside, ts =>
    match skipTokens Kind.isBreak ts with
    | [] => some ([], .returned [])
    | t :: us =>
      if ends inside t.kind then some ([], .returned (t :: us))
      else do
        let first ← statement n depth t us
        match first.2 with
        | .raised vs => some (first.1, .raised vs)
        | .returned vs =>
          let more ← body n depth inside vs
          some (first.1 ++ more.1, more.2)

end

/-- Reads a whole text that ends at `finish`, like `Sequence.document`, and says how that ends. -/
def document (n : Nat) (ts : List (Token Kind)) : Option (List Statement × Ending Kind) :=
  match skipTokens Kind.isBreak ts with
  | ⟨.header, _⟩ :: ts => body stack finish n 0 none ts
  | ts => body stack finish n 0 none ts

/-- What limits the readers. -/
def limits : Limits Statement := ⟨stack, stack.blocks, Statement.turn, Statement.opening?, finish⟩

end

/-- Where the loop stops. -/
def AtStop (inside : Option BlockKind) (ts : List (Token Kind)) : Prop :=
  ts = [] ∨ ∃ t us, ts = t :: us ∧ ends inside t.kind = true

variable {stack : Stack} {k depth depth' : Nat} {finish place : Place} {kind : BlockKind} {inside : Option BlockKind}
  {kinds kinds' : List BlockKind} {t : Token Kind} {ts us vs : List (Token Kind)} {sts sts' : List Statement}
  {e : Ending Kind} {behind : Text}

/-! ### One call -/

theorem statement_full (h : t.kind = .opening kind behind) (hfull : stack.blocks ≤ depth) :
    ComesBack (statement stack finish · depth t ts) 1 ([], .raised (left stack ts)) := by
  refine ComesBack.step fun n _ => ?_
  rw [statement, h]
  exact if_pos hfull

theorem statement_block (h : t.kind = .opening kind behind) (hroom : depth < stack.blocks)
    (hblock : ComesBack (block stack finish · (depth + 1) kind (readStatement finish [] t ts).2) k (sts, e)) :
    ComesBack (statement stack finish · depth t ts) (k + 1) ((readStatement finish [] t ts).1 :: sts, e) := by
  refine ComesBack.step fun n hn => ?_
  rw [statement, h]
  simp only [if_neg (Nat.not_le.2 hroom), hblock n hn, Option.bind_eq_bind, Option.bind_some]

theorem statement_flat (h : ∀ kind behind, t.kind ≠ .opening kind behind) :
    ComesBack (statement stack finish · depth t ts) 1
      ([(readStatement finish [] t ts).1], .returned (readStatement finish [] t ts).2) := by
  refine ComesBack.step fun n _ => ?_
  rw [statement]
  split
  · exact absurd ‹_› (h _ _)
  · rfl

theorem block_branch
    (hbody : ComesBack (body stack finish · depth (some kind) ts) k (sts, .returned (⟨.branch behind, place⟩ :: us)))
    (hmore : ComesBack (block stack finish · depth kind (readText behind us).2) k (sts', e)) :
    ComesBack (block stack finish · depth kind ts) (k + 1) (sts ++ .branch (readText behind us).1 :: sts', e) := by
  refine ComesBack.step fun n hn => ?_
  rw [block]
  simp only [hbody n hn, hmore n hn, Option.bind_eq_bind, Option.bind_some]

theorem block_closed
    (hbody : ComesBack (body stack finish · depth (some kind) ts) k (sts, .returned (⟨.closing, place⟩ :: us))) :
    ComesBack (block stack finish · depth kind ts) (k + 1) (sts ++ [.closing], .returned us) := by
  refine ComesBack.step fun n hn => ?_
  rw [block]
  simp only [hbody n hn, Option.bind_eq_bind, Option.bind_some]

theorem block_open (hbody : ComesBack (body stack finish · depth (some kind) ts) k (sts, .returned [])) :
    ComesBack (block stack finish · depth kind ts) (k + 1) (sts, .returned []) := by
  refine ComesBack.step fun n hn => ?_
  rw [block]
  simp only [hbody n hn, Option.bind_eq_bind, Option.bind_some]

theorem block_raise (hbody : ComesBack (body stack finish · depth (some kind) ts) k (sts, .raised us)) :
    ComesBack (block stack finish · depth kind ts) (k + 1) (sts, .raised us) := by
  refine ComesBack.step fun n hn => ?_
  rw [block]
  simp only [hbody n hn, Option.bind_eq_bind, Option.bind_some]

theorem body_stop (h : AtStop inside (skipTokens Kind.isBreak ts)) :
    ComesBack (body stack finish · depth inside ts) 1 ([], .returned (skipTokens Kind.isBreak ts)) := by
  refine ComesBack.step fun n _ => ?_
  rw [body]
  rcases h with h | ⟨t, us, h, ht⟩
  · rw [h]
  · rw [h]
    exact if_pos ht

theorem body_step (hskip : skipTokens Kind.isBreak ts = t :: us) (hgo : ends inside t.kind = false)
    (hfirst : ComesBack (statement stack finish · depth t us) k (sts, .returned vs))
    (hmore : ComesBack (body stack finish · depth inside vs) k (sts', e)) :
    ComesBack (body stack finish · depth inside ts) (k + 1) (sts ++ sts', e) := by
  refine ComesBack.step fun n hn => ?_
  rw [body, hskip]
  simp only [hgo, Bool.false_eq_true, if_false, hfirst n hn, hmore n hn, Option.bind_eq_bind, Option.bind_some]

theorem body_raise (hskip : skipTokens Kind.isBreak ts = t :: us) (hgo : ends inside t.kind = false)
    (hfirst : ComesBack (statement stack finish · depth t us) k (sts, .raised vs)) :
    ComesBack (body stack finish · depth inside ts) (k + 1) (sts, .raised vs) := by
  refine ComesBack.step fun n hn => ?_
  rw [body, hskip]
  simp only [hgo, Bool.false_eq_true, if_false, hfirst n hn, Option.bind_eq_bind, Option.bind_some]

/-! ### Blocks without a stack -/

/-- A token that ends nothing is read in the same way inside all blocks. -/
theorem readStatement_of_ends (h : ends kinds.head? t.kind = false) :
    readStatement finish kinds t ts = readStatement finish [] t ts := by
  obtain ⟨k, p⟩ := t
  cases k with
  | closing =>
    cases kinds with
    | nil => rfl
    | cons kind outer => cases h
  | branch behind =>
    have halt : ¬ kinds.head? = some .alt := by
      intro halt
      rw [halt] at h
      cases h
    simp only [readStatement, halt, if_false]
    rfl
  | _ => rfl

/-- A token that neither opens a block nor ends anything leaves the number of open blocks as it is. -/
theorem turn_of_flat (hflat : ∀ kind behind, t.kind ≠ .opening kind behind) (h : ends kinds.head? t.kind = false) :
    t.kind.turn kinds = .level := by
  obtain ⟨k, place⟩ := t
  cases k with
  | opening kind behind => exact absurd rfl (hflat kind behind)
  | closing =>
    cases kinds with
    | nil => rfl
    | cons kind outer => cases h
  | _ => rfl

theorem inside_of_level {st : Statement} (h : st.turn = .level) : st.inside kinds = kinds := by
  cases st with
  | opening kind label o => cases h
  | closing => cases h
  | _ => rfl

/-! ### How far one call comes -/

private theorem statements_nil (finish : Place) (kinds : List BlockKind) : statements finish kinds [] = [] := by
  rw [statements]

private theorem statements_start (h : t.kind.isBreak = false) (ts : List (Token Kind)) :
    statements finish kinds (t :: ts) = (readStatement finish kinds t ts).1 ::
      statements finish ((readStatement finish kinds t ts).1.inside kinds) (readStatement finish kinds t ts).2 := by
  rw [statements, if_neg (by simp [h])]

/-- A call from the tokens `ts` on, with `depth` blocks open, of which those that the statements can close are of the
given kinds. -/
abbrev Course (stack : Stack) (finish : Place) (depth : Nat) (kinds : List BlockKind) (ts : List (Token Kind))
    (found : List Statement) (depth' : Nat) (kinds' : List BlockKind) (e : Ending Kind) : Prop :=
  (limits stack finish).Course depth (statements finish kinds) ts found depth' (statements finish kinds') e

theorem course_skipBreaks (stack : Stack) (finish : Place) (depth : Nat) (kinds : List BlockKind)
    (ts : List (Token Kind)) :
    Course stack finish depth kinds ts [] depth kinds (.returned (skipTokens Kind.isBreak ts)) :=
  .returned (.skip (statements_skipBreaks finish kinds ts)) (Nat.zero_le _) (.inr rfl)

theorem course_readStatement (finish : Place) (kinds : List BlockKind) (h : t.kind.isBreak = false)
    (hroom : t.kind.turn kinds = .down → depth < stack.blocks) (ts : List (Token Kind)) :
    Course stack finish depth kinds (t :: ts) [(readStatement finish kinds t ts).1] ((t.kind.turn kinds).depth depth)
      ((readStatement finish kinds t ts).1.inside kinds) (.returned (readStatement finish kinds t ts).2) := by
  have hturn := turn_readStatement finish kinds t ts
  refine .returned ⟨(readStatement_suffix finish kinds t ts).trans (List.suffix_cons t ts), statements_start h ts⟩ ?_
    (.inr (congrArg (Turn.depth depth) hturn))
  simp only [limits, Depth.deepest, hturn]
  split
  · exact Nat.max_le.2 ⟨hroom ‹_›, Nat.zero_le _⟩
  · exact Nat.zero_le _

theorem left_suffix (stack : Stack) (ts : List (Token Kind)) : left stack ts <:+ ts := by
  unfold left
  split
  · exact skipLine_suffix ts
  · exact List.suffix_refl ts

/-- Where no token is left behind a block, it is the last statement. -/
private theorem skipLine_of_left (h : left stack ts = []) : skipLine ts = [] := by
  unfold left at h
  split at h
  · exact h
  · exact List.suffix_nil.1 (h ▸ skipLine_suffix ts)

/-- Where no room is left for a block, nothing of it is found. -/
theorem course_full (h : t.kind = .opening kind behind) (hfull : stack.blocks ≤ depth) :
    Course stack finish depth kinds (t :: ts) [] depth' kinds' (.raised (left stack ts)) := by
  obtain ⟨k, place⟩ := t
  obtain rfl : k = .opening kind behind := h
  have hstart : statements finish kinds (⟨.opening kind behind, place⟩ :: ts) =
      .opening kind (readText behind ts).1 ⟨place, startOf finish ts, startOf finish (skipLine ts)⟩ ::
        statements finish (kind :: kinds) (skipLine ts) := statements_start rfl ts
  have hplace : startOf finish (left stack ts) =
      stack.place ⟨place, startOf finish ts, startOf finish (skipLine ts)⟩ := by
    unfold left Stack.place
    split <;> rfl
  refine .raised ((left_suffix stack ts).trans (List.suffix_cons _ ts)) ?_ (hstart ▸ .intro (if_pos ⟨rfl, hfull⟩) rfl
    hplace fun hnil => ?_)
  · rw [hstart]
    exact if_pos ⟨rfl, hfull⟩
  · rw [skipLine_of_left hnil, statements_nil]

/-! ### Every call comes back -/

/-- From the tokens `ts` the loop comes back, inside blocks of any kinds, and stops where it has to, unless an error is
raised. -/
def BodyComesBack (stack : Stack) (finish : Place) (ts : List (Token Kind)) : Prop :=
  ∀ (depth : Nat) (kinds : List BlockKind), ∃ sts e,
    ComesBack (body stack finish · depth kinds.head? ts) (3 * ts.length + 1) (sts, e) ∧
      Course stack finish depth kinds ts sts depth kinds e ∧ ∀ us, e = .returned us → AtStop kinds.head? us

/-- From the tokens `ts` the reader of a block comes back, inside blocks of any kinds, and has left its block, unless an
error is raised. -/
def BlockComesBack (stack : Stack) (finish : Place) (ts : List (Token Kind)) : Prop :=
  ∀ (depth : Nat) (kind : BlockKind) (outer : List BlockKind), ∃ sts e,
    ComesBack (block stack finish · (depth + 1) kind ts) (3 * ts.length + 2) (sts, e) ∧
      Course stack finish (depth + 1) (kind :: outer) ts sts depth outer e

/-- If the reader of a block comes back, the reader of a statement does, and the token that it stood at is behind it. -/
theorem exists_statement (h : t.kind.isBreak = false) (hgo : ends kinds.head? t.kind = false)
    (hblock : BlockComesBack stack finish (readStatement finish [] t ts).2) :
    ∃ sts e, ComesBack (statement stack finish · depth t ts) (3 * ts.length + 3) (sts, e) ∧ e.rest <:+ ts ∧
      Course stack finish depth kinds (t :: ts) sts depth kinds e := by
  have hread := readStatement_suffix finish [] t ts
  have hle := hread.length_le
  have hsame : readStatement finish kinds t ts = readStatement finish [] t ts := readStatement_of_ends hgo
  by_cases hopening : ∃ kind behind, t.kind = .opening kind behind
  · obtain ⟨kind, behind, hopening⟩ := hopening
    by_cases hfull : stack.blocks ≤ depth
    · exact ⟨_, _, (statement_full hopening hfull).mono (by omega), left_suffix stack ts, course_full hopening hfull⟩
    · have hroom : depth < stack.blocks := Nat.not_le.1 hfull
      have hdown : t.kind.turn kinds = .down := by rw [hopening]; rfl
      have hinside : (readStatement finish kinds t ts).1.inside kinds = kind :: kinds := by
        simp only [readStatement, hopening]
        rfl
      have hhead := course_readStatement finish kinds h (fun _ => hroom) ts
      rw [hinside, hsame, hdown] at hhead
      obtain ⟨sts, e, hblock, hinner⟩ := hblock depth kind kinds
      exact ⟨_, e, (statement_block hopening hroom hblock).mono (by omega), hinner.suffix.trans hread,
        hhead.trans (statements_nil finish _) hinner⟩
  · have hflat : ∀ kind behind, t.kind ≠ .opening kind behind := fun kind behind he => hopening ⟨kind, behind, he⟩
    have hlevel : t.kind.turn kinds = .level := turn_of_flat hflat hgo
    have hroom : t.kind.turn kinds = .down → depth < stack.blocks := by
      rw [hlevel]
      exact Turn.noConfusion
    have hhead := course_readStatement finish kinds h hroom ts
    rw [inside_of_level ((turn_readStatement finish kinds t ts).trans hlevel), hsame, hlevel] at hhead
    exact ⟨_, _, (statement_flat hflat).mono (by omega), hread, hhead⟩

private theorem bodyComesBack_step
    (hbody : ∀ us : List (Token Kind), us.length < ts.length → BodyComesBack stack finish us)
    (hblock : ∀ us : List (Token Kind), us.length < ts.length → BlockComesBack stack finish us) :
    BodyComesBack stack finish ts := by
  intro depth kinds
  have hskipped := course_skipBreaks stack finish depth kinds ts
  by_cases hstop : AtStop kinds.head? (skipTokens Kind.isBreak ts)
  · exact ⟨[], _, (body_stop hstop).mono (by omega), hskipped, fun us he => Ending.returned.inj he ▸ hstop⟩
  · cases hskip : skipTokens Kind.isBreak ts with
    | nil => exact absurd (Or.inl hskip) hstop
    | cons t us =>
      rw [hskip] at hskipped hstop
      have hgo : ends kinds.head? t.kind = false :=
        Bool.eq_false_iff.2 fun hends => hstop (Or.inr ⟨t, us, rfl, hends⟩)
      have hlt : us.length < ts.length := length_of_skipTokens hskip
      have hread := (readStatement_suffix finish [] t us).length_le
      obtain ⟨sts, e, hfirst, hrest, hcourse⟩ :=
        exists_statement (not_of_skipTokens hskip) hgo (hblock (readStatement finish [] t us).2 (by omega))
      have hall := hskipped.trans (statements_nil finish kinds) hcourse
      cases e with
      | raised vs => exact ⟨_, _, (body_raise hskip hgo hfirst).mono (by omega), hall, nofun⟩
      | returned vs =>
        have hle : vs.length ≤ us.length := hrest.length_le
        obtain ⟨sts', e', hmore, hcourse', hend⟩ := hbody vs (by omega) depth kinds
        -- the reader of the first statement needs the greater depth
        have hstep := body_step hskip hgo hfirst (hmore.mono (by omega))
        exact ⟨_, e', hstep.mono (by omega), hall.trans (statements_nil finish kinds) hcourse', hend⟩

private theorem blockComesBack_step (hbody : BodyComesBack stack finish ts)
    (hblock : ∀ us : List (Token Kind), us.length < ts.length → BlockComesBack stack finish us) :
    BlockComesBack stack finish ts := by
  intro depth kind outer
  obtain ⟨sts, e, hinner, hcourse, hstop⟩ := hbody (depth + 1) (kind :: outer)
  cases e with
  | raised us => exact ⟨sts, _, block_raise hinner, hcourse.raise⟩
  | returned us =>
    rcases hstop us rfl with rfl | ⟨⟨k, place⟩, vs, rfl, hends⟩
    · exact ⟨sts, _, block_open hinner, hcourse.at_end (statements_nil finish _) (statements_nil finish _)⟩
    · have hle : vs.length + 1 ≤ ts.length := hcourse.suffix.length_le
      cases k with
      | closing =>
        have hend : Course stack finish (depth + 1) (kind :: outer) (⟨.closing, place⟩ :: vs) [.closing] depth outer
            (.returned vs) := course_readStatement finish (kind :: outer) (t := ⟨.closing, place⟩) rfl nofun vs
        exact ⟨_, _, block_closed hinner, hcourse.trans (statements_nil finish _) hend⟩
      | branch behind =>
        -- only the statements of an alternative end at the word that begins its next branch
        obtain rfl : kind = .alt := by
          cases kind with
          | alt => rfl
          | _ => cases hends
        have hnext : Course stack finish (depth + 1) (.alt :: outer) (⟨.branch behind, place⟩ :: vs)
            [.branch (readText behind vs).1] (depth + 1) (.alt :: outer) (.returned (readText behind vs).2) :=
          course_readStatement finish (.alt :: outer) (t := ⟨.branch behind, place⟩) rfl nofun vs
        have hline : (readText behind vs).2.length ≤ vs.length := (skipLine_suffix vs).length_le
        obtain ⟨sts', e', hmore, hrest⟩ := hblock (readText behind vs).2 (by omega) depth .alt outer
        exact ⟨_, e', block_branch hinner (hmore.mono (by omega)),
          hcourse.trans (statements_nil finish _) (hnext.trans (statements_nil finish _) hrest)⟩
      | _ => cases hends

/-- Every call comes back, whatever tokens are left. -/
theorem exists_body (stack : Stack) (finish : Place) (ts : List (Token Kind)) :
    BodyComesBack stack finish ts ∧ BlockComesBack stack finish ts := by
  induction hn : ts.length using Nat.strongRecOn generalizing ts with
  | ind n ih =>
    subst hn
    have hbody : BodyComesBack stack finish ts :=
      bodyComesBack_step (fun us h => (ih _ h us rfl).1) fun us h => (ih _ h us rfl).2
    exact ⟨hbody, blockComesBack_step hbody fun us h => (ih _ h us rfl).2⟩

/-- Reading a text is reading the statements behind its header, if it has one. -/
private theorem document_start (stack : Stack) (cut : Tokens Kind) :
    ∃ us, us.length ≤ cut.tokens.length ∧
      (∀ n, document stack cut.finish n cut.tokens = body stack cut.finish n 0 none us) ∧
      Sequence.document cut = statements cut.finish [] us := by
  by_cases hheader : ∃ place us, skipTokens Kind.isBreak cut.tokens = ⟨.header, place⟩ :: us
  · obtain ⟨place, us, hskip⟩ := hheader
    have hlt : us.length < cut.tokens.length := length_of_skipTokens hskip
    exact ⟨us, Nat.le_of_lt hlt, fun n => by rw [document, hskip], by rw [Sequence.document, hskip]⟩
  · refine ⟨skipTokens Kind.isBreak cut.tokens, (skipTokens_suffix _ _).length_le, fun n => ?_, ?_⟩
    · unfold document
      split
      · exact absurd ⟨_, _, ‹_›⟩ hheader
      · rfl
    · unfold Sequence.document
      split
      · exact absurd ⟨_, _, ‹_›⟩ hheader
      · rfl

/-- A text is read to its end if its blocks have room, and what is found is what the flat list holds; or else up to the
first block that is too many. -/
theorem exists_document (stack : Stack) (cut : Tokens Kind) :
    ∃ e, ComesBack (document stack cut.finish · cut.tokens) (3 * cut.tokens.length + 1)
        (front stack (Sequence.document cut), e) ∧ (limits stack cut.finish).Stops (Sequence.document cut) e := by
  obtain ⟨us, hle, hdescent, hflat⟩ := document_start stack cut
  obtain ⟨sts, e, hbody, hcourse, hstop⟩ := (exists_body stack cut.finish us).1 0 []
  obtain ⟨rfl, hstops⟩ := hcourse.stops (statements_nil cut.finish []) fun vs he => by
    rcases hstop vs he with rfl | ⟨t, ws, rfl, hends⟩
    · rfl
    · cases hends
  simp only [hdescent, hflat]
  exact ⟨e, hbody.mono (by omega), hstops⟩

/-- The readers of a text come back from each place of it, and read as much of it as the stack has room for. -/
structure Finishes (stack : Stack) (s : Text) : Prop where
  /-- From every token that is no break, whatever is open there, the reader of a statement comes back with that token
  behind it.  It raises an error only where all the room for blocks is used up. -/
  statement : ∀ depth t ts, t :: ts <:+ (tokenize rule s).tokens → t.kind.isBreak = false →
    ∃ sts e, ComesBack (statement stack (tokenize rule s).finish · depth t ts) (3 * ts.length + 3) (sts, e) ∧
      e.rest <:+ ts ∧
      ∀ us, e = .raised us → stack.blocks ≤ Depth.depthBehind Statement.turn depth sts
  /-- The reader of the text comes back with all that the text says and no token left, if its blocks have room, or else
  with all in front of the first block that is too many, and it stands there. -/
  document : ∃ e, ComesBack (document stack (tokenize rule s).finish · (tokenize rule s).tokens)
      (3 * (tokenize rule s).tokens.length + 1) (front stack (Sequence.document (tokenize rule s)), e) ∧
    (limits stack (tokenize rule s).finish).Stops (Sequence.document (tokenize rule s)) e

/-- However the blocks of a text nest, its readers come back, from the words `end` and `else`, too. -/
theorem finishes (stack : Stack) (s : Text) : Finishes stack s where
  statement depth t ts _ hbreak := by
    have hgo : ends ([] : List BlockKind).head? t.kind = false := rfl
    obtain ⟨sts, e, hstatement, hrest, hcourse⟩ := exists_statement hbreak hgo
      (exists_body stack (tokenize rule s).finish (readStatement (tokenize rule s).finish [] t ts).2).2
    refine ⟨sts, e, hstatement, hrest, fun us he => ?_⟩
    subst he
    exact hcourse.full
  document := exists_document stack (tokenize rule s)

end Descent

end DiagramText.Sequence

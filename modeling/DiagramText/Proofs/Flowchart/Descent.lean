import DiagramText.Proofs.Flowchart.Reach
import DiagramText.Proofs.Walk

/-!
# Recursive descent through a chart

`statements` reads a chart as one flat list, in which a subgraph is opened and closed by statements of their own.  Here
a subgraph is read as a whole: the reader of a statement calls a loop over the statements inside, and the loop calls the
reader.  Neither of them has a measure: each is told how deep calls and rounds may stand inside each other, and gives up
with `none` where they would go deeper.  Apart from that each is told how many subgraphs are open, and raises an error
at a subgraph for which the stack has no room.

Every call comes back.  The reader takes up the token that it stands at (`exists_statement`), so that each round of the
loop leaves fewer tokens, and the loop stops only where it has to: in front of the `end` of its subgraph, or at the end
of the text (`exists_body`), unless an error is raised.  So a text in which the subgraphs that are open at once have
room is read to its end, and another one up to the first subgraph that is too many; what is found is what the flat list
holds there (`exists_document`).
-/

namespace DiagramText.Flowchart

namespace Descent

/-- The tokens that are left behind the word of a subgraph for which the stack has no room. -/
def left (stack : Stack) (ts : List (Token Kind)) : List (Token Kind) := if stack.titled then (readTitle ts).2 else ts

section

variable (stack : Stack) (finish : Place)

mutual

/-- Reads the statement that begins with the token `t`, with all that stands inside if it opens a subgraph, where
`depth` subgraphs are open. -/
def statement : Nat → Nat → Token Kind → List (Token Kind) → Option (List Statement × Ending Kind)
  | 0, _, _, _ => none
  | n + 1, depth, t, ts =>
    let read := readStatement finish t ts
    match t.kind with
    | .opening =>
      if stack.subgraphs ≤ depth then some ([], .raised (left stack ts))
      else do
        let inner ← body n (depth + 1) read.2
        match inner.2 with
        | .returned (⟨.closing, place⟩ :: us) => some (read.1 :: (inner.1 ++ [.closing place]), .returned us)
        -- the end of the text closes the subgraph, too
        | e => some (read.1 :: inner.1, e)
    | _ => some ([read.1], .returned read.2)

/-- Reads statements one after the other; inside a subgraph the word `end` stops the loop and is left. -/
def body : Nat → Nat → List (Token Kind) → Option (List Statement × Ending Kind)
  | 0, _, _ => none
  | n + 1, depth, ts =>
    match skipBreaks ts with
    | [] => some ([], .returned [])
    | t :: us =>
      if depth ≠ 0 ∧ t.kind = .closing then some ([], .returned (t :: us))
      else do
        let first ← statement n depth t us
        match first.2 with
        | .raised vs => some (first.1, .raised vs)
        | .returned vs =>
          let more ← body n depth vs
          some (first.1 ++ more.1, more.2)

end

/-- Reads a whole text, like `Flowchart.document`, and says how that ends. -/
def document (n : Nat) (ts : List (Token Kind)) : Option ((Direction × List Statement) × Ending Kind) :=
  match skipBreaks ts with
  | ⟨.keyword .flowchart, _⟩ :: ts | ⟨.keyword .graph, _⟩ :: ts => do
    let direction := readDirection ts
    let read ← body stack finish n 0 direction.2
    some ((direction.1.getD .topDown, read.1), read.2)
  | ts => do
    let read ← body stack finish n 0 ts
    some ((.topDown, read.1), read.2)

/-- What limits the readers. -/
def limits : Limits Statement := ⟨stack, stack.subgraphs, Statement.turn, Statement.opening?, finish⟩

end

/-- Where the loop stops. -/
def AtStop (depth : Nat) (ts : List (Token Kind)) : Prop :=
  ts = [] ∨ depth ≠ 0 ∧ ∃ place us, ts = ⟨.closing, place⟩ :: us

variable {stack : Stack} {finish : Place} {k depth : Nat} {t : Token Kind} {ts us vs : List (Token Kind)}
  {sts sts' : List Statement} {e : Ending Kind}

/-! ### One call -/

theorem statement_of_ne_opening (h : t.kind ≠ .opening) :
    ComesBack (statement stack finish · depth t ts) 1
      ([(readStatement finish t ts).1], .returned (readStatement finish t ts).2) := by
  refine ComesBack.step fun n _ => ?_
  rw [statement]
  split
  · exact absurd ‹_› h
  · rfl

theorem statement_full (h : t.kind = .opening) (hfull : stack.subgraphs ≤ depth) :
    ComesBack (statement stack finish · depth t ts) 1 ([], .raised (left stack ts)) := by
  refine ComesBack.step fun n _ => ?_
  rw [statement, h]
  exact if_pos hfull

theorem statement_closed {place : Place} (h : t.kind = .opening) (hroom : depth < stack.subgraphs)
    (hbody : ComesBack (body stack finish · (depth + 1) (readStatement finish t ts).2) k
      (sts, .returned (⟨.closing, place⟩ :: us))) :
    ComesBack (statement stack finish · depth t ts) (k + 1)
      ((readStatement finish t ts).1 :: (sts ++ [.closing place]), .returned us) := by
  refine ComesBack.step fun n hn => ?_
  rw [statement, h]
  simp only [if_neg (Nat.not_le.2 hroom), hbody n hn, Option.bind_eq_bind, Option.bind_some]

theorem statement_open (h : t.kind = .opening) (hroom : depth < stack.subgraphs)
    (hbody : ComesBack (body stack finish · (depth + 1) (readStatement finish t ts).2) k (sts, .returned [])) :
    ComesBack (statement stack finish · depth t ts) (k + 1) ((readStatement finish t ts).1 :: sts, .returned []) := by
  refine ComesBack.step fun n hn => ?_
  rw [statement, h]
  simp only [if_neg (Nat.not_le.2 hroom), hbody n hn, Option.bind_eq_bind, Option.bind_some]

theorem statement_raise (h : t.kind = .opening) (hroom : depth < stack.subgraphs)
    (hbody : ComesBack (body stack finish · (depth + 1) (readStatement finish t ts).2) k (sts, .raised us)) :
    ComesBack (statement stack finish · depth t ts) (k + 1) ((readStatement finish t ts).1 :: sts, .raised us) := by
  refine ComesBack.step fun n hn => ?_
  rw [statement, h]
  simp only [if_neg (Nat.not_le.2 hroom), hbody n hn, Option.bind_eq_bind, Option.bind_some]

theorem body_stop (h : AtStop depth (skipBreaks ts)) :
    ComesBack (body stack finish · depth ts) 1 ([], .returned (skipBreaks ts)) := by
  refine ComesBack.step fun n _ => ?_
  rw [body]
  rcases h with h | ⟨hinside, place, us, h⟩
  · rw [h]
  · rw [h]
    exact if_pos ⟨hinside, rfl⟩

private theorem not_closing (hskip : skipBreaks ts = t :: us) (hgo : ¬ AtStop depth (skipBreaks ts)) :
    ¬ (depth ≠ 0 ∧ t.kind = .closing) := by
  obtain ⟨k, place⟩ := t
  rintro ⟨hinside, rfl⟩
  exact hgo (Or.inr ⟨hinside, place, us, hskip⟩)

theorem body_step (hskip : skipBreaks ts = t :: us) (hgo : ¬ AtStop depth (skipBreaks ts))
    (hfirst : ComesBack (statement stack finish · depth t us) k (sts, .returned vs))
    (hmore : ComesBack (body stack finish · depth vs) k (sts', e)) :
    ComesBack (body stack finish · depth ts) (k + 1) (sts ++ sts', e) := by
  refine ComesBack.step fun n hn => ?_
  rw [body, hskip]
  simp only [if_neg (not_closing hskip hgo), hfirst n hn, hmore n hn, Option.bind_eq_bind, Option.bind_some]

theorem body_raise (hskip : skipBreaks ts = t :: us) (hgo : ¬ AtStop depth (skipBreaks ts))
    (hfirst : ComesBack (statement stack finish · depth t us) k (sts, .raised vs)) :
    ComesBack (body stack finish · depth ts) (k + 1) (sts, .raised vs) := by
  refine ComesBack.step fun n hn => ?_
  rw [body, hskip]
  simp only [if_neg (not_closing hskip hgo), hfirst n hn, Option.bind_eq_bind, Option.bind_some]

/-! ### How far one call comes -/

private theorem statements_nil (finish : Place) : statements finish [] = [] := by rw [statements]

theorem turn_readStatement (finish : Place) (t : Token Kind) (ts : List (Token Kind)) :
    (readStatement finish t ts).1.turn = t.kind.turn := by
  obtain ⟨k, place⟩ := t
  cases k <;> rfl

/-- A call from the tokens `ts` on, with `depth` subgraphs open. -/
abbrev Course (stack : Stack) (finish : Place) (depth : Nat) (ts : List (Token Kind)) (found : List Statement)
    (depth' : Nat) (e : Ending Kind) : Prop :=
  (limits stack finish).Course depth (statements finish) ts found depth' (statements finish) e

theorem course_skipBreaks (stack : Stack) (finish : Place) (depth : Nat) (ts : List (Token Kind)) :
    Course stack finish depth ts [] depth (.returned (skipBreaks ts)) :=
  .returned (.skip (statements_skipBreaks finish ts)) (Nat.zero_le _) (.inr rfl)

theorem course_readStatement (finish : Place) (h : t.kind.isBreak = false)
    (hroom : t.kind = .opening → depth < stack.subgraphs) (ts : List (Token Kind)) :
    Course stack finish depth (t :: ts) [(readStatement finish t ts).1] (t.kind.turn.depth depth)
      (.returned (readStatement finish t ts).2) := by
  have hturn := turn_readStatement finish t ts
  refine .returned ⟨(readStatement_suffix finish t ts).trans (List.suffix_cons t ts), statements_start finish h ts⟩ ?_
    (.inr (congrArg (Turn.depth depth) hturn))
  obtain ⟨k, place⟩ := t
  simp only [limits, Depth.deepest, hturn]
  cases k with
  | opening => exact Nat.max_le.2 ⟨hroom rfl, Nat.zero_le _⟩
  | _ => exact Nat.zero_le _

theorem left_suffix (stack : Stack) (ts : List (Token Kind)) : left stack ts <:+ ts := by
  unfold left
  split
  · exact readTitle_suffix ts
  · exact List.suffix_refl ts

/-- Where no token is left behind a subgraph, it is the last statement. -/
private theorem statements_of_left {place : Place} (h : left stack ts = []) :
    statements finish (readStatement finish ⟨.opening, place⟩ ts).2 = [] := by
  have htitle : (readTitle ts).2 = [] := by
    unfold left at h
    split at h
    · exact h
    · exact List.suffix_nil.1 (h ▸ readTitle_suffix ts)
  have hrest : (readStatement finish ⟨.opening, place⟩ ts).2 <:+ [] := htitle ▸ readInnerDirection_suffix _
  rw [List.suffix_nil.1 hrest, statements_nil]

/-- Where no room is left for a subgraph, nothing of it is found. -/
theorem course_full (h : t.kind = .opening) (hfull : stack.subgraphs ≤ depth) (ts : List (Token Kind)) (depth' : Nat) :
    Course stack finish depth (t :: ts) [] depth' (.raised (left stack ts)) := by
  obtain ⟨k, place⟩ := t
  obtain rfl : k = .opening := h
  have hstart := statements_start finish (t := ⟨.opening, place⟩) rfl ts
  have hroom : Statement.turn (readStatement finish ⟨.opening, place⟩ ts).1 = .down ∧ stack.subgraphs ≤ depth :=
    ⟨rfl, hfull⟩
  have hopening : (readStatement finish ⟨.opening, place⟩ ts).1.opening? = some (openingAt finish place ts) := rfl
  have hplace : startOf finish (left stack ts) = stack.place (openingAt finish place ts) := by
    unfold left Stack.place
    split <;> rfl
  have hfront :
      Depth.front Statement.turn stack.subgraphs depth (statements finish (⟨.opening, place⟩ :: ts)) = [] := by
    rw [hstart]
    exact if_pos hroom
  have hrest : Depth.rest Statement.turn stack.subgraphs depth (statements finish (⟨.opening, place⟩ :: ts)) =
      (readStatement finish ⟨.opening, place⟩ ts).1 ::
        statements finish (readStatement finish ⟨.opening, place⟩ ts).2 := by
    rw [hstart]
    exact if_pos hroom
  exact .raised ((left_suffix stack ts).trans (List.suffix_cons _ ts)) hfront
    (.intro hrest hopening hplace statements_of_left)

/-! ### Every call comes back -/

/-- From the tokens `ts` the loop comes back and stops where it has to, unless an error is raised. -/
def BodyComesBack (stack : Stack) (finish : Place) (depth : Nat) (ts : List (Token Kind)) : Prop :=
  ∃ sts e, ComesBack (body stack finish · depth ts) (2 * ts.length + 1) (sts, e) ∧
    Course stack finish depth ts sts depth e ∧ ∀ us, e = .returned us → AtStop depth us

/-- If the loop comes back from inside a subgraph, the reader comes back from the statement, and the token that it stood
at is behind it. -/
theorem exists_statement (h : t.kind.isBreak = false) (hgo : t.kind = .closing → depth = 0)
    (hbody : BodyComesBack stack finish (depth + 1) (readStatement finish t ts).2) :
    ∃ sts e, ComesBack (statement stack finish · depth t ts) (2 * ts.length + 2) (sts, e) ∧ e.rest <:+ ts ∧
      Course stack finish depth (t :: ts) sts depth e := by
  have hread := readStatement_suffix finish t ts
  have hle := hread.length_le
  by_cases hopening : t.kind = .opening
  · by_cases hfull : stack.subgraphs ≤ depth
    · exact ⟨_, _, (statement_full hopening hfull).mono (by omega), left_suffix stack ts,
        course_full hopening hfull ts depth⟩
    · have hroom : depth < stack.subgraphs := Nat.not_le.1 hfull
      have hhead := course_readStatement finish h (fun _ => hroom) ts
      have hinside : t.kind.turn.depth depth = depth + 1 := by rw [hopening]; rfl
      rw [hinside] at hhead
      obtain ⟨sts, e, hbody, hinner, hstop⟩ := hbody
      have hrest := hinner.suffix.trans hread
      cases e with
      | raised us =>
        exact ⟨_, _, (statement_raise hopening hroom hbody).mono (by omega), hrest,
          hhead.trans (statements_nil finish) hinner.raise⟩
      | returned us =>
        rcases hstop us rfl with rfl | ⟨-, place, vs, rfl⟩
        · exact ⟨_, _, (statement_open hopening hroom hbody).mono (by omega), hrest,
            hhead.trans (statements_nil finish) (hinner.at_end (statements_nil finish) (statements_nil finish))⟩
        · -- the word that stopped the loop closes the subgraph
          have hend : Course stack finish (depth + 1) (⟨.closing, place⟩ :: vs) [.closing place] depth (.returned vs) :=
            course_readStatement finish (t := ⟨.closing, place⟩) rfl nofun vs
          exact ⟨_, _, (statement_closed hopening hroom hbody).mono (by omega), (List.suffix_cons _ vs).trans hrest,
            hhead.trans (statements_nil finish) (hinner.trans (statements_nil finish) hend)⟩
  · have hroom : t.kind = .opening → depth < stack.subgraphs := fun he => absurd he hopening
    have hlevel : t.kind.turn.depth depth = depth := by
      obtain ⟨k, place⟩ := t
      cases k with
      | opening => exact absurd rfl hopening
      | closing =>
        obtain rfl : depth = 0 := hgo rfl
        rfl
      | _ => rfl
    have hhead := course_readStatement finish h hroom ts
    rw [hlevel] at hhead
    exact ⟨_, _, (statement_of_ne_opening hopening).mono (by omega), hread, hhead⟩

/-- The loop comes back, whatever tokens are left, and stops where it has to. -/
theorem exists_body (stack : Stack) (finish : Place) (depth : Nat) (ts : List (Token Kind)) :
    BodyComesBack stack finish depth ts := by
  induction hn : ts.length using Nat.strongRecOn generalizing depth ts with
  | ind n ih =>
    subst hn
    have hskipped := course_skipBreaks stack finish depth ts
    by_cases hstop : AtStop depth (skipBreaks ts)
    · exact ⟨[], _, (body_stop hstop).mono (by omega), hskipped, fun us he => Ending.returned.inj he ▸ hstop⟩
    · cases hskip : skipBreaks ts with
      | nil => exact absurd (Or.inl hskip) hstop
      | cons t us =>
        rw [hskip] at hskipped
        have hlt : us.length < ts.length := length_of_skipTokens hskip
        have hread := (readStatement_suffix finish t us).length_le
        have hgo : t.kind = .closing → depth = 0 := fun he =>
          Decidable.not_not.1 fun hinside => not_closing hskip hstop ⟨hinside, he⟩
        obtain ⟨sts, e, hfirst, hrest, hcourse⟩ := exists_statement (not_of_skipTokens hskip) hgo
          (ih _ (by omega) (depth + 1) (readStatement finish t us).2 rfl)
        have hall := hskipped.trans (statements_nil finish) hcourse
        cases e with
        | raised vs => exact ⟨_, _, (body_raise hskip hstop hfirst).mono (by omega), hall, nofun⟩
        | returned vs =>
          have hle : vs.length ≤ us.length := hrest.length_le
          obtain ⟨sts', e', hmore, hcourse', hend⟩ := ih vs.length (by omega) depth vs rfl
          -- the reader of the first statement needs the greater depth
          have hstep := body_step hskip hstop hfirst (hmore.mono (by omega))
          exact ⟨_, e', hstep.mono (by omega), hall.trans (statements_nil finish) hcourse', hend⟩

/-- Reading a text is reading the statements behind its header, if it has one. -/
private theorem document_start (stack : Stack) (cut : Tokens Kind) :
    ∃ direction us, us <:+ cut.tokens ∧
      (∀ n, document stack cut.finish n cut.tokens = do
        let read ← body stack cut.finish n 0 us
        some ((direction, read.1), read.2)) ∧
      Flowchart.document cut = (direction, statements cut.finish us) := by
  by_cases hheader : ∃ keyword place us, (keyword = .flowchart ∨ keyword = .graph) ∧
      skipBreaks cut.tokens = ⟨.keyword keyword, place⟩ :: us
  · obtain ⟨keyword, place, us, hkeyword, hskip⟩ := hheader
    have hbehind := (readDirection_suffix us).trans (suffix_of_skipTokens hskip)
    refine ⟨(readDirection us).1.getD .topDown, (readDirection us).2, hbehind, fun n => ?_, ?_⟩
    · rcases hkeyword with rfl | rfl <;> rw [document, hskip]
    · rcases hkeyword with rfl | rfl <;> rw [Flowchart.document, hskip]
  · refine ⟨.topDown, skipBreaks cut.tokens, skipTokens_suffix _ cut.tokens, fun n => ?_, ?_⟩
    · unfold document
      split
      · exact absurd ⟨_, _, _, Or.inl rfl, ‹_›⟩ hheader
      · exact absurd ⟨_, _, _, Or.inr rfl, ‹_›⟩ hheader
      · rfl
    · unfold Flowchart.document
      split
      · exact absurd ⟨_, _, _, Or.inl rfl, ‹_›⟩ hheader
      · exact absurd ⟨_, _, _, Or.inr rfl, ‹_›⟩ hheader
      · rfl

/-- A text is read to its end if its subgraphs have room, and what is found is what the flat list holds; or else up to
the first subgraph that is too many. -/
theorem exists_document (stack : Stack) (cut : Tokens Kind) :
    ∃ e, ComesBack (document stack cut.finish · cut.tokens) (2 * cut.tokens.length + 1)
        (((Flowchart.document cut).1, front stack (Flowchart.document cut).2), e) ∧
      (limits stack cut.finish).Stops (Flowchart.document cut).2 e := by
  obtain ⟨direction, us, hus, hdescent, hflat⟩ := document_start stack cut
  have hle := hus.length_le
  obtain ⟨sts, e, hbody, hcourse, hstop⟩ := exists_body stack cut.finish 0 us
  obtain ⟨rfl, hstops⟩ := hcourse.stops (statements_nil cut.finish) fun vs he =>
    (hstop vs he).resolve_right fun h => absurd rfl h.1
  simp only [hdescent, hflat]
  refine ⟨e, fun n hn => ?_, hstops⟩
  have hall : body stack cut.finish n 0 us = some (front stack (statements cut.finish us), e) :=
    hbody n (by omega)
  simp only [hall, Option.bind_eq_bind, Option.bind_some]

/-- The readers of a text come back from each place of it, and read as much of it as the stack has room for. -/
structure Finishes (stack : Stack) (s : Text) : Prop where
  /-- From every token that is no break, whatever is open there, the reader of a statement comes back with that token
  behind it.  It raises an error only where all the room for subgraphs is used up. -/
  statement : ∀ depth t ts, t :: ts <:+ (tokenize rule s).tokens → t.kind.isBreak = false →
    ∃ sts e, ComesBack (statement stack (tokenize rule s).finish · depth t ts) (2 * ts.length + 2) (sts, e) ∧
      e.rest <:+ ts ∧
      ∀ us, e = .raised us → stack.subgraphs ≤ Depth.depthBehind Statement.turn depth sts
  /-- The reader of the text comes back with all that the text says and no token left, if its subgraphs have room, or
  else with all in front of the first subgraph that is too many, and it stands there. -/
  document : ∃ e, ComesBack (document stack (tokenize rule s).finish · (tokenize rule s).tokens)
      (2 * (tokenize rule s).tokens.length + 1)
      (((Flowchart.document (tokenize rule s)).1, front stack (Flowchart.document (tokenize rule s)).2), e) ∧
    (limits stack (tokenize rule s).finish).Stops (Flowchart.document (tokenize rule s)).2 e

/-- However the subgraphs of a text nest, its readers come back. -/
theorem finishes (stack : Stack) (s : Text) : Finishes stack s where
  statement depth t ts _ hbreak := by
    by_cases hclosing : t.kind = .closing ∧ depth ≠ 0
    · -- a stray `end` is a statement, although no loop inside a subgraph calls the reader there
      have hflat : t.kind ≠ .opening := by simp [hclosing.1]
      exact ⟨_, _, (statement_of_ne_opening hflat).mono (by omega), readStatement_suffix _ t ts, nofun⟩
    · have hgo : t.kind = .closing → depth = 0 := fun h => Decidable.not_not.1 fun hinside => hclosing ⟨h, hinside⟩
      obtain ⟨sts, e, hstatement, hrest, hcourse⟩ :=
        exists_statement hbreak hgo (exists_body stack (tokenize rule s).finish (depth + 1) _)
      refine ⟨sts, e, hstatement, hrest, fun us he => ?_⟩
      subst he
      exact hcourse.full
  document := exists_document stack (tokenize rule s)

end Descent

end DiagramText.Flowchart

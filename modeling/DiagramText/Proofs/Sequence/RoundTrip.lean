import DiagramText.Proofs.Sequence.Completion
import DiagramText.Proofs.Sequence.Depth
import DiagramText.Proofs.Sequence.Steps

/-!
# The round trip of sequence diagrams

A text is read line by line (`reads_event`, `said_write`), each statement fits the blocks that the ones before it leave
open (`fitting_timeline`), and adding the statements leads from snapshot to snapshot (`foldl_snapshot`).  So a diagram
whose parts fit together is written as a text that can be read if there is room for its blocks (`read_write`), and what
is read is the ranked diagram if keys and names are kept (`read_write_of_kept`, `read_write_ranked`).
-/

namespace DiagramText.Sequence

/-- A name behind `as` that is read as it is written. -/
def Participant.Kept (p : Participant) : Prop := p.display?.bind redisplay = p.display?

/-- A diagram in which every text stays on its line, and every key can be quoted. -/
structure Diagram.Spelled (d : Diagram) : Prop where
  quotable : ∀ p ∈ d.participants, Text.isQuotable p.key = true
  display : ∀ p ∈ d.participants, ∀ name ∈ p.display?, '\n' ∉ name
  message_label : ∀ m ∈ d.messages, '\n' ∉ m.label
  note_text : ∀ n ∈ d.notes, '\n' ∉ n.text
  block_label : ∀ b ∈ d.frames, ∀ s ∈ b.branches, '\n' ∉ s.label

/-- A diagram whose free texts are read as they are written. -/
structure Diagram.Free (d : Diagram) : Prop extends d.Spelled where
  message_freed : ∀ m ∈ d.messages, freed m.label = m.label
  note_freed : ∀ n ∈ d.notes, freed n.text = n.text
  block_freed : ∀ b ∈ d.frames, ∀ s ∈ b.branches, freed s.label = s.label

theorem Diagram.Writable.free {d : Diagram} (h : d.Writable) : d.Free where
  quotable := h.quotable
  display p hp name hname := (h.display p hp name hname).label.one_line
  message_label m hm := (h.message_label m hm).one_line
  note_text n hn := (h.note_text n hn).one_line
  block_label b hb s hs := (h.block_label b hb s hs).one_line
  message_freed m hm := (h.message_label m hm).free.freed
  note_freed n hn := (h.note_text n hn).free.freed
  block_freed b hb s hs := (h.block_label b hb s hs).free.freed

theorem Diagram.Writable.kept {d : Diagram} (h : d.Writable) : ∀ p ∈ d.participants, p.Kept := by
  intro p hp
  unfold Participant.Kept
  cases hdisplay : p.display? with
  | none => rfl
  | some name => exact (h.display p hp name hdisplay).redisplay

/-- What is read of a line that says this. -/
def Statement.freed : Statement → Statement
  | message source target type label => message source target type (Sequence.freed label)
  | note position keys text => note position keys (Sequence.freed text)
  | opening kind label o => opening kind (Sequence.freed label) o
  | branch label => branch (Sequence.freed label)
  | st => st

theorem Statement.turn_freed (st : Statement) : st.freed.turn = st.turn := by cases st <;> rfl

theorem Statement.error?_freed (st : Statement) : st.freed.error? = st.error? := by cases st <;> rfl

/-- What is read of a line fits where the line does. -/
theorem fitting_freed {sts : List Statement} {inside : List BlockKind} (h : Fitting inside sts) :
    Fitting inside (sts.map Statement.freed) := by
  have hfits : ∀ (st : Statement) (inside : List BlockKind), st.freed.Fits inside = st.Fits inside := by
    intro st inside
    cases st <;> rfl
  have hinside : ∀ (st : Statement) (inside : List BlockKind), st.freed.inside inside = st.inside inside := by
    intro st inside
    cases st <;> rfl
  induction sts generalizing inside with
  | nil => trivial
  | cons st sts ih => exact ⟨(hfits st inside).symm ▸ h.1, (hinside st inside).symm ▸ ih h.2⟩

/-- The statement that the line of a participant is read as. -/
def Participant.declaration (p : Participant) : Statement :=
  .participant p.kind p.key (p.display?.bind redisplay)

/-- The participant that is read from the line, as number `i`. -/
def Participant.reread (i : Nat) (p : Participant) : Participant where
  id := .minted i
  name := (p.display?.bind redisplay).getD p.key
  kind := p.kind
  shortName := (p.display?.bind redisplay).map fun _ => p.key
  order := i

theorem Participant.Kept.reread {p : Participant} (h : p.Kept) (i : Nat) : p.reread i = p.rank i := by
  unfold Participant.reread Participant.rank
  rw [h, p.getD_display?]

namespace Diagram

/-! ### Declarations -/

/-- Declaring participants with different keys numbers them. -/
theorem foldl_declarations {ps : List Participant} (hkeys : (ps.map Participant.key).Nodup) :
    (ps.map Participant.declaration).foldl Draft.add {} =
      { participants := ps.mapIdx fun i p => (p.key, p.reread i) } := by
  have hview : ∀ ps : List Participant,
      Keyed.keys (ps.mapIdx fun i p => (p.key, p.reread i)) = ps.map Participant.key := by
    intro ps
    unfold Keyed.keys
    apply Keyed.map_mapIdx
    exact fun _ _ => rfl
  have hrun : ∀ before after : List Participant, ((before ++ after).map Participant.key).Nodup →
      (after.map Participant.declaration).foldl Draft.add
          { participants := before.mapIdx fun i p => (p.key, p.reread i) } =
        { participants := (before ++ after).mapIdx fun i p => (p.key, p.reread i) } := by
    intro before after hnodup
    induction after generalizing before with
    | nil => rw [List.append_nil, List.map_nil, List.foldl_nil]
    | cons p after ih =>
      have hnew : p.key ∉ Keyed.keys (before.mapIdx fun i p => (p.key, p.reread i)) := by
        rw [hview]
        rw [List.map_append, List.nodup_append] at hnodup
        exact fun hmem => hnodup.2.2 _ hmem _ (List.mem_map_of_mem List.mem_cons_self) rfl
      have hnext : before ++ p :: after = (before ++ [p]) ++ after := by
        rw [List.append_assoc]
        rfl
      rw [hnext] at hnodup ⊢
      rw [← ih (before ++ [p]) hnodup, List.map_cons, List.foldl_cons, Participant.declaration, Draft.add,
        Draft.update, Keyed.upsert_of_not_mem hnew, List.mapIdx_concat]
      simp only [Option.getD_none, List.length_mapIdx]
      rfl
  exact hrun [] ps hkeys

variable {d : Diagram} (hd : d.Coherent)

/-! ### Along the timeline -/

section

include hd

/-- Adding the statements of the timeline leads from snapshot to snapshot. -/
private theorem foldl_snapshot (hkeys : (d.participants.map Participant.key).Nodup) {before after : List Happening}
    (ht : d.timeline = before ++ after) :
    (after.map (Happening.statement d.keyOf)).foldl Draft.add (d.snapshot before) = d.snapshot d.timeline := by
  induction after generalizing before with
  | nil => rw [ht, List.append_nil, List.map_nil, List.foldl_nil]
  | cons h after ih =>
    have hnext : d.timeline = (before ++ [h]) ++ after := by
      rw [ht, List.append_assoc]
      rfl
    rw [List.map_cons, List.foldl_cons, add_snapshot ht hd hkeys, ih hnext]

/-- The statements of the timeline fit. -/
private theorem fitting_timeline {before after : List Happening} (ht : d.timeline = before ++ after) :
    Fitting (d.insideAt before) (after.map (Happening.statement d.keyOf)) := by
  induction after generalizing before with
  | nil => trivial
  | cons h after ih =>
    have hnext : d.timeline = (before ++ [h]) ++ after := by
      rw [ht, List.append_assoc]
      rfl
    obtain ⟨hfits, hinside⟩ := fits_insideAt ht hd
    refine ⟨hfits, ?_⟩
    rw [hinside]
    exact ih hnext

end

/-! ### Line by line -/

section

variable (hs : d.Spelled) {key : Id → Text}
include hs

/-- The line of a happening reads as its statement, by whatever keys it is written. -/
theorem reads_event (hl : d.Linked)
    (hkey : ∀ id ∈ d.participants.map Participant.id, Text.isQuotable (key id) = true) {h : Happening} (hh : h.Of d) :
    Reads (h.event key).text (h.statement key).freed := by
  cases h with
  | message m =>
    obtain ⟨hsource, htarget⟩ := hl.message_ends m hh
    exact reads_message m.type (hkey _ hsource) (hkey _ htarget) (hs.message_label m hh)
  | note n =>
    obtain ⟨hne, hsub⟩ := hl.note_participants n hh
    have hkeys : ∀ name ∈ n.participants.map key, Text.isQuotable name = true := by
      intro name hname
      obtain ⟨id, hid, rfl⟩ := List.mem_map.1 hname
      exact hkey id (hsub hid)
    have hnames : n.participants.map (fun id => formatKey (key id)) = (n.participants.map key).map formatKey := by
      rw [List.map_map]
      rfl
    simp only [Happening.event, hnames]
    exact reads_note n.position (by simpa using hne) hkeys (hs.note_text n hh)
  | opening b => exact reads_opening b.kind (hs.block_label b hh b.first List.mem_cons_self)
  | branch b s => exact reads_branch (hs.block_label b hh.1 s (List.mem_cons_of_mem _ hh.2))
  | closing b => exact reads_closing
  | activate a => exact reads_activate (hkey _ (hl.activation_participant a hh))
  | deactivate a stop => exact reads_deactivate (hkey _ (hl.activation_participant a hh.1))

/-- The lines behind the header with what they read as, without their indents. -/
private def body (d : Diagram) (key : Id → Text) (hs : List Happening) : List (Text × Statement) :=
  d.sortedParticipants.map (fun p => (p.line, p.declaration)) ++
    hs.map fun h => ((h.event key).text, (h.statement key).freed)

variable {happenings : List Happening} (hreads : ∀ h ∈ happenings, Reads (h.event key).text (h.statement key).freed)
include hreads

private theorem reads_body : ∀ l ∈ d.body key happenings, Reads l.1 l.2 := by
  intro l hl
  rcases List.mem_append.1 hl with hl | hl
  · obtain ⟨p, hp, rfl⟩ := List.mem_map.1 hl
    have hp := mem_sortedParticipants.1 hp
    exact reads_participant (hs.quotable p hp) (hs.display p hp)
  · obtain ⟨h, hh, rfl⟩ := List.mem_map.1 hl
    exact hreads h hh

variable (hevents : d.sortedEvents = happenings.map (Happening.event key))
include hevents

/-- The tokens of a text are those of its header and of the lines behind it. -/
private theorem kinds_write (size : Int) :
    kinds rule (d.write size) = .header :: (d.body key happenings).flatMap fun l => .newline :: kinds rule l.1 := by
  have hindent : ∀ (n : Nat) (s : Text), '\n' ∉ s → '\n' ∉ Text.indent size n ++ s := by
    intro n s hs
    rw [List.mem_append, not_or]
    exact ⟨Text.break_not_mem_indent size n, hs⟩
  have hline : ∀ p ∈ d.sortedParticipants, '\n' ∉ p.line := fun p hp =>
    (reads_body hs hreads (p.line, p.declaration) (List.mem_append_left _ (List.mem_map_of_mem hp))).one_line
  have hevent : ∀ e ∈ d.sortedEvents, '\n' ∉ e.text := by
    intro e he
    rw [hevents] at he
    obtain ⟨h, hh, rfl⟩ := List.mem_map.1 he
    exact (hreads h hh).one_line
  have hlines : ∀ l ∈ d.lines size, '\n' ∉ l := by
    intro l hl
    rw [lines, List.cons_append, List.mem_cons, List.mem_append, List.mem_map, List.mem_map] at hl
    rcases hl with rfl | ⟨p, hp, rfl⟩ | ⟨e, he, rfl⟩
    · decide
    · exact hindent 1 p.line (hline p hp)
    · refine hindent e.1 e.2.text (hevent e.2 ?_)
      rw [← map_snd_depths 1 d.sortedEvents]
      exact List.mem_map_of_mem he
  have hheader : kinds rule Kind.header.text = [.header] := kinds_last_word (by decide)
  have hkinds : (depths 1 d.sortedEvents).flatMap (fun e => .newline :: kinds rule e.2.text) =
      happenings.flatMap fun h => .newline :: kinds rule (h.event key).text := by
    have hmap : (depths 1 d.sortedEvents).flatMap (fun e => .newline :: kinds rule e.2.text) =
        ((depths 1 d.sortedEvents).map Prod.snd).flatMap fun e => .newline :: kinds rule e.text := by
      rw [List.flatMap_map]
    rw [hmap, map_snd_depths, hevents, List.flatMap_map]
  rw [write, lines, List.cons_append, rule_lineLocal.kinds_unlines (by rw [← List.cons_append]; exact hlines), hheader,
    List.singleton_append, body]
  simp only [List.flatMap_append, List.flatMap_map, kinds_indent, hkinds]

/-- A text whose lines behind the participants are those of some happenings says what they do. -/
theorem said_write (hfit : Fitting [] (happenings.map (Happening.statement key))) (size : Int) :
    said (d.write size) = d.sortedParticipants.map Participant.declaration ++
      (happenings.map (Happening.statement key)).map Statement.freed := by
  have hbody : (d.body key happenings).map Prod.snd = d.sortedParticipants.map Participant.declaration ++
      (happenings.map (Happening.statement key)).map Statement.freed := by
    rw [body, List.map_append, List.map_map, List.map_map, List.map_map]
    rfl
  have hfits : Fitting [] ((d.body key happenings).map Prod.snd) := by
    have hstart : ∀ ps : List Participant, Fitting [] (ps.map Participant.declaration ++
        (happenings.map (Happening.statement key)).map Statement.freed) := by
      intro ps
      induction ps with
      | nil => exact fitting_freed hfit
      | cons p ps ih => exact ⟨trivial, ih⟩
    rw [hbody]
    exact hstart d.sortedParticipants
  rw [← hbody, said, kinds_write hs hreads hevents, unplaced_cons]
  exact statements_lines (reads_body hs hreads) hfits

end

section

variable {key : Id → Text} {happenings : List Happening} {ps : List Participant}

/-- No line that is written is an error. -/
private theorem error?_of_mem : ∀ st ∈ ps.map Participant.declaration ++
    (happenings.map (Happening.statement key)).map Statement.freed, st.error? = none := by
  intro st hst
  rcases List.mem_append.1 hst with hst | hst
  · obtain ⟨p, -, rfl⟩ := List.mem_map.1 hst
    rfl
  · obtain ⟨st', hst', rfl⟩ := List.mem_map.1 hst
    obtain ⟨h, -, rfl⟩ := List.mem_map.1 hst'
    rw [Statement.error?_freed]
    cases h <;> rfl

/-- The lines nest as deep as their events. -/
private theorem deepest_lines (hevents : d.sortedEvents = happenings.map (Happening.event key)) :
    Depth.deepest Statement.turn 0 (ps.map Participant.declaration ++
      (happenings.map (Happening.statement key)).map Statement.freed) = Depth.deepest Event.turn 0 d.sortedEvents := by
  have hlevel : ∀ st ∈ ps.map Participant.declaration, st.turn = .level := by
    intro st hst
    obtain ⟨p, -, rfl⟩ := List.mem_map.1 hst
    rfl
  rw [Depth.deepest_append, Depth.deepest_eq_zero fun st hst => by rw [hlevel st hst]; decide,
    Depth.depthBehind_of_level hlevel, Nat.zero_max, Depth.deepest_map Statement.turn_freed,
    Depth.deepest_map (Happening.turn_statement key), deepest_sortedEvents hevents]

variable (hsaid : ∀ size : Int, said (d.write size) = d.sortedParticipants.map Participant.declaration ++
    (happenings.map (Happening.statement key)).map Statement.freed)
  (hevents : d.sortedEvents = happenings.map (Happening.event key)) (stack : Stack) (size : Int)
include hsaid hevents

/-- If there is room, the text is read without errors, statement by statement. -/
theorem read_write_happenings (hroom : Depth.deepest Event.turn 0 d.sortedEvents ≤ stack.blocks) :
    (read stack (d.write size)).outcome = .ok (Draft.ofStatements (d.sortedParticipants.map Participant.declaration ++
      (happenings.map (Happening.statement key)).map Statement.freed)).toDiagram := by
  rw [← deepest_lines hevents] at hroom
  exact read_eq_ok (hsaid size) hroom error?_of_mem

/-- If there is no room, the only error is that of a block too many. -/
theorem read_write_crowded (hroom : ¬ Depth.deepest Event.turn 0 d.sortedEvents ≤ stack.blocks) :
    ∃ o, (read stack (d.write size)).outcome = .error [stack.error o] := by
  rw [← deepest_lines hevents] at hroom
  exact read_eq_error (hsaid size) hroom error?_of_mem

end

/-- The statements of a text that was written. -/
def statements (d : Diagram) : List Statement :=
  d.sortedParticipants.map Participant.declaration ++ d.timeline.map (Happening.statement d.keyOf)

end Diagram

section

variable {d : Diagram} (hd : d.Coherent)
include hd

private theorem said_write_coherent (hs : d.Spelled) (size : Int) :
    said (d.write size) = d.sortedParticipants.map Participant.declaration ++
      (d.timeline.map (Happening.statement d.keyOf)).map Statement.freed := by
  have hkey : ∀ id ∈ d.participants.map Participant.id, Text.isQuotable (d.keyOf id) = true := by
    intro id hid
    obtain ⟨p, hp, rfl⟩ := List.mem_map.1 hid
    rw [Diagram.keyOf_id hd hp]
    exact hs.quotable p hp
  have hreads : ∀ h ∈ d.timeline, Reads (h.event d.keyOf).text (h.statement d.keyOf).freed :=
    fun h hh => Diagram.reads_event hs hd.toLinked hkey (Diagram.mem_timeline.1 hh)
  exact Diagram.said_write hs hreads (Diagram.sortedEvents_eq hd)
    (Diagram.fitting_timeline hd (List.nil_append _).symm) size

/-- What was written is read without errors, statement by statement, if there is room for the blocks. -/
theorem read_write (hs : d.Free) {stack : Stack} (hroom : d.NestsWithin stack.blocks) (size : Int) :
    (read stack (d.write size)).outcome = .ok (Draft.ofStatements d.statements).toDiagram := by
  have hfree : (d.timeline.map (Happening.statement d.keyOf)).map Statement.freed =
      d.timeline.map (Happening.statement d.keyOf) := by
    rw [List.map_map]
    apply List.map_congr_left
    intro h hh
    have hof := Diagram.mem_timeline.1 hh
    cases h with
    | message m => exact congrArg _ (hs.message_freed m hof)
    | note n => exact congrArg _ (hs.note_freed n hof)
    | opening b => exact congrArg (Statement.opening b.kind · {}) (hs.block_freed b hof b.first List.mem_cons_self)
    | branch b s => exact congrArg _ (hs.block_freed b hof.1 s (List.mem_cons_of_mem _ hof.2))
    | closing | activate | deactivate => rfl
  have hread := Diagram.read_write_happenings (said_write_coherent hd hs.toSpelled) (Diagram.sortedEvents_eq hd) stack
    size (hd.laminar.deepest_events.2 hroom)
  rwa [hfree] at hread

/-- If there is no room for them, the only error is that of a block too many. -/
theorem read_write_deep (hs : d.Spelled) {stack : Stack} (hroom : ¬ d.NestsWithin stack.blocks) (size : Int) :
    ∃ o, (read stack (d.write size)).outcome = .error [stack.error o] :=
  Diagram.read_write_crowded (said_write_coherent hd hs) (Diagram.sortedEvents_eq hd) stack size
    (mt hd.laminar.deepest_events.1 hroom)

/-- Where no two participants share a key and every name is kept, the ranked diagram is read. -/
theorem read_write_of_kept (hs : d.Free) (hkeys : (d.participants.map Participant.key).Nodup)
    (hkept : ∀ p ∈ d.participants, p.Kept) {stack : Stack} (hroom : d.NestsWithin stack.blocks) (size : Int) :
    (read stack (d.write size)).outcome = .ok d.ranked := by
  have hsorted : (d.sortedParticipants.map Participant.key).Nodup :=
    ((sortBy_perm _ d.participants).map _).nodup_iff.2 hkeys
  have hdeclared : d.sortedParticipants.mapIdx (fun i p => (p.key, p.reread i)) = d.declared := by
    apply List.mapIdx_eq_mapIdx_iff.2
    intro i hi
    rw [(hkept _ (Diagram.mem_sortedParticipants.1 (List.getElem_mem hi))).reread]
  have hstart : (d.sortedParticipants.map Participant.declaration).foldl Draft.add {} = d.snapshot [] := by
    rw [Diagram.foldl_declarations hsorted, hdeclared]
    rfl
  rw [read_write hd hs hroom, Diagram.statements, Draft.ofStatements, List.foldl_append, hstart,
    Diagram.foldl_snapshot hd hkeys (List.nil_append _).symm, Draft.closeAll, Diagram.inside_snapshot_timeline,
    List.foldl_nil, Diagram.toDiagram_snapshot_timeline hd]

end

/-- Reading what was written gives the diagram with everything sorted, its orders replaced by their ranks and its
participants numbered, if there is room for its blocks.  If there is not, the only error is that of a block too many. -/
theorem read_write_ranked {d : Diagram} (hd : d.Writable) (stack : Stack) (size : Int) :
    (d.NestsWithin stack.blocks → (read stack (d.write size)).outcome = .ok d.ranked) ∧
      (¬ d.NestsWithin stack.blocks → ∃ o, (read stack (d.write size)).outcome = .error [stack.error o]) :=
  ⟨fun hroom => read_write_of_kept hd.toCoherent hd.free hd.keys hd.kept hroom size,
    fun hroom => read_write_deep hd.toCoherent hd.free.toSpelled hroom size⟩

/-- An order that is placed in a loop inside one of two branches, with an activation inside another and one that stays
open. -/
def checkout : Diagram where
  participants := [
    { id := .given "c".toList, name := "shop clerk".toList, kind := .actor, shortName := some "clerk".toList,
      order := 7 },
    { id := .given "b".toList, name := "loop".toList, order := 3 },
    { id := .given "a".toList, name := "Ann Other".toList, shortName := some [], order := -2 }]
  messages := [
    { source := .given "b".toList, target := .given "c".toList, type := .dottedCross, label := "a: \"b\"".toList,
      order := 41 },
    { source := .given "a".toList, target := .given "a".toList, order := -10 }]
  notes := [
    { text := "both of them".toList, participants := [.given "c".toList, .given "a".toList], order := 12 },
    { text := [], position := .leftOf, participants := [.given "b".toList], order := 90 }]
  activations := [
    { participant := .given "c".toList, start := 22, stop := some 58 },
    { participant := .given "b".toList, start := 70 },
    { participant := .given "c".toList, start := 43, stop := some 45 }]
  loops := [{ label := "twice end".toList, start := 40, stop := 50 }]
  alts := [[
    { label := "in stock".toList, start := 10, stop := 30 },
    { label := [], start := 30, stop := 60 }]]
  opts := [{ label := [], start := 80, stop := 95 }]

theorem read_write_checkout : checkout.Writable ∧ checkout.NestsWithin 2 ∧ ¬ checkout.NestsWithin 1 ∧
    (read { blocks := 2 } (checkout.write 2)).outcome = .ok checkout.ranked ∧
      ∃ o, (read { blocks := 1 } (checkout.write 2)).outcome = .error [Stack.error { blocks := 1 } o] := by
  have hd : checkout.Writable := by
    refine { ids := ?_, message_ends := ?_, note_participants := ?_, activation_participant := ?_, alts := ?_,
             orders := ?_, joined := ?_, nested := ?_, outside := ?_, forward := ?_, active := ?_, keys := ?_,
             quotable := ?_, display := ?_, message_label := ?_, note_text := ?_, block_label := ?_ }
    all_goals decide
  have hroom : checkout.NestsWithin 2 := by decide
  have hcrowded : ¬ checkout.NestsWithin 1 := by decide
  exact ⟨hd, hroom, hcrowded, (read_write_ranked hd { blocks := 2 } 2).1 hroom,
    (read_write_ranked hd { blocks := 1 } 2).2 hcrowded⟩

/-- Alternatives that stand inside each other, each in the first branch of the one around it. -/
def onion (n : Nat) : Diagram where
  alts := (List.range n).map fun i : Nat =>
    [{ label := [], start := i, stop := 3 * n - 2 * i - 1 },
      { label := [], start := 3 * n - 2 * i - 1, stop := 3 * n - 2 * i }]

/-- The alternative number `i`, from the outermost on. -/
def peel (n i : Nat) : Frame :=
  ⟨.alt, { label := [], start := i, stop := 3 * n - 2 * i - 1 },
    [{ label := [], start := 3 * n - 2 * i - 1, stop := 3 * n - 2 * i }]⟩

theorem frames_onion (n : Nat) : (onion n).frames = (List.range n).map (peel n) := by
  show ((List.range n).map _).flatMap Frame.ofBranches = _
  rw [List.flatMap_map, ← List.flatMap_pure_eq_map]
  rfl

theorem mem_frames_onion {n : Nat} {b : Frame} : b ∈ (onion n).frames ↔ ∃ i < n, peel n i = b := by
  rw [frames_onion, List.mem_map]
  simp only [List.mem_range]

/-- Each alternative lies in the ones before it. -/
theorem liesIn_peel_iff {n i j : Nat} : (peel n j).LiesIn (peel n i) ↔ i ≤ j := by
  show (i : Int) ≤ j ∧ 3 * (n : Int) - 2 * j ≤ 3 * n - 2 * i ↔ _
  omega

theorem writable_onion (n : Nat) : (onion n).Writable := by
  have horders : (onion n).orders = (List.range n).flatMap fun i : Nat => (peel n i).orders := by
    rw [Diagram.orders, frames_onion, List.flatMap_map]
    exact List.append_nil _
  refine { ids := List.nodup_nil, message_ends := List.forall_mem_nil _, note_participants := List.forall_mem_nil _,
           activation_participant := List.forall_mem_nil _, alts := ?_, orders := ?_, joined := ?_, nested := ?_,
           outside := ?_, forward := List.forall_mem_nil _, active := List.forall_mem_nil _, keys := List.nodup_nil,
           quotable := List.forall_mem_nil _, display := List.forall_mem_nil _,
           message_label := List.forall_mem_nil _, note_text := List.forall_mem_nil _, block_label := ?_ }
  · simp [onion]
  · rw [horders, List.nodup_flatMap]
    refine ⟨?_, List.nodup_range.imp_of_mem ?_⟩
    · intro i hi
      rw [List.mem_range] at hi
      simp [Frame.orders, Frame.start, Frame.stop, Frame.branches, peel]
      omega
    · intro i j hi hj hne
      rw [List.mem_range] at hi hj
      simp [Function.onFun, Frame.orders, Frame.start, Frame.stop, Frame.branches, peel]
      omega
  · intro b hb
    obtain ⟨i, hi, rfl⟩ := mem_frames_onion.1 hb
    refine ⟨?_, List.isChain_pair.2 rfl⟩
    simp [Frame.branches, peel]
    omega
  · intro a ha b hb hstart _
    obtain ⟨i, -, rfl⟩ := mem_frames_onion.1 ha
    obtain ⟨j, -, rfl⟩ := mem_frames_onion.1 hb
    have hij : (i : Int) < j := hstart
    show 3 * (n : Int) - 2 * j < 3 * n - 2 * i
    omega
  · intro a ha b hb hstart _ s hs
    obtain ⟨i, -, rfl⟩ := mem_frames_onion.1 ha
    obtain ⟨j, -, rfl⟩ := mem_frames_onion.1 hb
    have hij : (i : Int) < j := hstart
    rw [peel, List.mem_singleton] at hs
    subst hs
    show 3 * (n : Int) - 2 * i - 1 < j ∨ 3 * (n : Int) - 2 * j < 3 * n - 2 * i - 1
    omega
  · intro b hb
    obtain ⟨i, -, rfl⟩ := mem_frames_onion.1 hb
    have hlabel : IsLabel [] := by decide
    simp [Frame.branches, peel, hlabel]

/-- The innermost alternative lies in all of them. -/
theorem le_of_nestsWithin_onion {n limit : Nat} (h : (onion n).NestsWithin limit) : n ≤ limit := by
  cases n with
  | zero => exact Nat.zero_le limit
  | succ n =>
    have hin : ∀ c ∈ (onion (n + 1)).frames, decide ((peel (n + 1) n).LiesIn c) = true := by
      intro c hc
      obtain ⟨i, hi, rfl⟩ := mem_frames_onion.1 hc
      rw [decide_eq_true_eq, liesIn_peel_iff]
      exact Nat.le_of_lt_succ hi
    have hle := h (peel (n + 1) n) (mem_frames_onion.2 ⟨n, Nat.lt_succ_self n, rfl⟩)
    rwa [List.filter_eq_self.2 hin, frames_onion, List.length_map, List.length_range] at hle

/-- Alternatives inside each other that are more than the stack has room for are written, but not read back. -/
theorem read_write_onion : (onion 326).Writable ∧
    ∃ o, (read {} ((onion 326).write 4)).outcome = .error [Stack.error {} o] := by
  have hd := writable_onion 326
  have hroom : ¬ (onion 326).NestsWithin 325 := fun h => absurd (le_of_nestsWithin_onion h) (by decide)
  exact ⟨hd, read_write_deep hd.toCoherent hd.free.toSpelled hroom 4⟩

end DiagramText.Sequence

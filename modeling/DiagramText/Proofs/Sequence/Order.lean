import DiagramText.Proofs.Report
import DiagramText.Proofs.Sequence.Parsed
import DiagramText.Proofs.Sequence.References
import Mathlib.Data.List.Perm.Basic

/-!
# The orders of a diagram that was read

A closed block stands in the diagram as a frame whose branches follow one another (`Block.Closed`), and stretches that
are laminar become frames and activations that are nested or apart (`Block.Closed.nested`, `Activation.nested`).  So
whatever text a diagram was read from, its orders are the numbers from 0 on and fit together (`ordered_of_read`).
-/

namespace DiagramText.Sequence

/-! ### Nested or apart -/

/-- One block ends before the other begins. -/
def Frame.Apart (a b : Frame) : Prop := a.stop < b.start ∨ b.stop < a.start

/-- A block lies in another, and none of the other's further branches begins in it. -/
structure Frame.Within (b a : Frame) : Prop where
  start : a.start < b.start
  stop : b.stop < a.stop
  branches : ∀ s ∈ a.more, s.start < b.start ∨ b.stop < s.start

/-- One activation ends before the other begins. -/
def Activation.Apart (a b : Activation Id) : Prop :=
  (∃ stop ∈ a.stop, stop < b.start) ∨ ∃ stop ∈ b.stop, stop < a.start

/-- An activation lies in another.  One without an end goes on forever. -/
structure Activation.Within (b a : Activation Id) : Prop where
  start : a.start < b.start
  stop : ∀ stop ∈ a.stop, ∃ earlier ∈ b.stop, earlier < stop

/-! ### Closed blocks -/

private theorem map_start_chain (stop : Int) (bs : List (Text × Int)) :
    (chain stop bs).map Span.start = bs.map Prod.snd := by
  induction bs with
  | nil => rfl
  | cons b bs ih => rw [chain, List.map_cons, List.map_cons, ih]

private theorem stop_chain {stop : Int} {bs : List (Text × Int)} :
    ∀ s ∈ (chain stop bs).getLast?, s.stop = stop := by
  induction bs with
  | nil => simp [chain]
  | cons b bs ih =>
    cases bs with
    | nil => simp [chain]
    | cons c bs =>
      rw [chain, chain, List.getLast?_cons_cons]
      rwa [chain] at ih

private theorem joined_chain {stop : Int} {bs : List (Text × Int)}
    (h : (bs.map Prod.snd ++ [stop]).Pairwise (· < ·)) :
    (∀ s ∈ chain stop bs, s.start < s.stop) ∧ (chain stop bs).IsChain fun s t => s.stop = t.start := by
  induction bs with
  | nil => simp [chain]
  | cons b bs ih =>
    rw [List.map_cons, List.cons_append, List.pairwise_cons] at h
    obtain ⟨hforward, hchained⟩ := ih h.2
    rw [chain, List.forall_mem_cons]
    cases bs with
    | nil => exact ⟨⟨h.1 stop (by simp), hforward⟩, List.isChain_singleton _⟩
    | cons c bs =>
      refine ⟨⟨h.1 c.2 (by simp), hforward⟩, ?_⟩
      rw [chain] at hchained ⊢
      exact hchained.cons_cons rfl

/-- A block as it stands in the diagram once it is closed. -/
def Block.frame (b : Block) : Frame := ⟨b.kind, b.spans.headD ⟨[], 0, 0⟩, b.spans.tail⟩

/-- A block that is closed, with its end behind all its branches. -/
structure Block.Closed (b : Block) : Prop where
  spans : b.spans = b.frame.branches
  joined : b.frame.Joined
  orders : b.stretch.orders = b.frame.start :: (b.frame.more.map Span.start ++ [b.frame.stop])
  closed : b.stretch.closed = true
  kind : b.frame.more ≠ [] → b.kind = .alt

theorem Block.Closed.of {b : Block} {first : Text × Int} {more : List (Text × Int)} (hb : b.branches = first :: more)
    (hkind : more ≠ [] → b.kind = .alt) (hstop : b.stop.isNone = false) (horders : b.stretch.orders.Pairwise (· < ·)) :
    b.Closed := by
  obtain ⟨stop, hstop⟩ : ∃ stop, b.stop = some stop := by
    rw [← Option.isSome_iff_exists, ← Option.not_isNone, hstop]
    rfl
  have hstretch : b.stretch.orders = (first :: more).map Prod.snd ++ [stop] := by
    rw [Block.stretch, hb, hstop]
    rfl
  have hchain : b.spans = chain stop (first :: more) := by
    rw [Block.spans, hb, hstop]
    rfl
  have hspans : b.spans = b.frame.branches := by
    rw [Block.frame, hchain, chain]
    rfl
  rw [hstretch] at horders
  obtain ⟨hforward, hchained⟩ := joined_chain horders
  have hstarts := map_start_chain stop (first :: more)
  have hend : b.frame.stop = stop := by
    have hlast : ∀ s ∈ (chain stop (first :: more)).getLast?, s.stop = stop := stop_chain
    rw [Frame.stop]
    rw [← hchain, hspans, Frame.branches, List.getLast?_cons] at hlast
    rw [Frame.branches, List.getLast?_cons]
    exact hlast _ rfl
  rw [← hchain, hspans, Frame.branches, List.map_cons] at hstarts
  refine ⟨hspans, ⟨?_, ?_⟩, ?_, ?_, ?_⟩
  · rwa [← hspans, hchain]
  · rwa [← hspans, hchain]
  · rw [hstretch, ← hstarts, hend]
    rfl
  · rw [Block.stretch, hstop]
    rfl
  · intro hmore
    apply hkind
    rintro rfl
    exact hmore (List.map_eq_nil_iff.1 (List.cons_eq_cons.1 hstarts).2)

theorem Block.Closed.orders_perm {b : Block} (h : b.Closed) : b.frame.orders.Perm b.stretch.orders := by
  rw [h.orders]
  exact (List.perm_append_singleton _ _).symm.cons _

theorem Block.Closed.more_eq_nil {b : Block} (h : b.Closed) (hkind : b.kind ≠ .alt) : b.frame.more = [] :=
  Decidable.byContradiction fun hne => hkind (h.kind hne)

/-- Of two blocks the later one is apart from the other or lies in one of its branches. -/
theorem Block.Closed.nested {a b : Block} (ha : a.Closed) (hb : b.Closed)
    (hstart : ∀ x ∈ a.stretch.orders.head?, ∀ y ∈ b.stretch.orders, x < y)
    (hapart : ∀ x ∈ a.stretch.orders, b.stretch.Misses x) : a.frame.Apart b.frame ∨ b.frame.Within a.frame := by
  have hbstart : b.frame.start ∈ b.stretch.orders := by simp [hb.orders]
  have hbstop : b.frame.stop ∈ b.stretch.orders := by simp [hb.orders]
  have hmisses : ∀ x ∈ a.stretch.orders, x < b.frame.start ∨ b.frame.stop < x := fun x hx =>
    (hapart x hx).imp (fun h => h _ hbstart) fun h => h.2 _ hbstop
  rcases hmisses a.frame.stop (by simp [ha.orders]) with hlt | hlt
  · exact Or.inl (Or.inl hlt)
  · refine Or.inr ⟨hstart _ (by simp [ha.orders]) _ hbstart, hlt, ?_⟩
    intro s hs
    exact hmisses s.start (by simp [ha.orders, List.mem_map_of_mem hs])

/-- Of two activations of a participant the later one is apart from the other or lies in it. -/
theorem Activation.nested {a b : Activation Id} (hstart : ∀ x ∈ a.stretch.orders.head?, ∀ y ∈ b.stretch.orders, x < y)
    (hapart : ∀ x ∈ a.stretch.orders, b.stretch.Misses x) : a.Apart b ∨ b.Within a := by
  have hbstart : b.start ∈ b.stretch.orders := List.mem_cons_self
  have hlt : a.start < b.start := hstart _ rfl _ hbstart
  cases hs : a.stop with
  | none =>
    refine Or.inr ⟨hlt, ?_⟩
    rw [hs]
    exact fun _ h => nomatch h
  | some stop =>
    rcases hapart stop (by simp [Activation.stretch, Activation.orders, hs]) with hbefore | ⟨hclosed, hbehind⟩
    · exact Or.inl (Or.inl ⟨stop, hs, hbefore _ hbstart⟩)
    · obtain ⟨earlier, hearlier⟩ := Option.isSome_iff_exists.1 hclosed
      refine Or.inr ⟨hlt, ?_⟩
      intro t ht
      rw [hs, Option.mem_some_iff] at ht
      subst ht
      exact ⟨earlier, hearlier, hbehind _ (by simp [Activation.stretch, Activation.orders, hearlier])⟩

private theorem filter_kinds (bs : List Block) :
    (bs.filter (·.kind = .loop) ++ bs.filter (·.kind = .opt) ++ bs.filter (·.kind = .alt)).Perm bs := by
  induction bs with
  | nil => exact List.Perm.refl _
  | cons b bs ih =>
    refine List.Perm.trans ?_ (ih.cons b)
    rw [List.append_assoc, List.append_assoc]
    cases hk : b.kind with
    | loop => simp [hk]
    | opt => simp [hk, List.perm_middle]
    | alt =>
      simp only [List.filter_cons, hk, decide_true, if_true, decide_false, reduceCtorEq, if_false, Bool.false_eq_true,
        ← List.append_assoc]
      exact List.perm_middle

section

variable {d : Draft} (h : ∀ b ∈ d.blocks, b.Closed)
include h

/-- Blocks that are no alternatives have one branch each. -/
theorem Draft.flatMap_spans {kind : BlockKind} (hkind : kind ≠ .alt) :
    (d.blocks.filter (·.kind = kind)).flatMap Block.spans =
      (d.blocks.filter (·.kind = kind)).map fun b => b.frame.first := by
  rw [← List.flatMap_pure_eq_map]
  apply List.flatMap_congr
  intro b hb
  obtain ⟨hb, hk⟩ := List.mem_filter.1 hb
  rw [decide_eq_true_eq] at hk
  have hmore := (h b hb).more_eq_nil (hk ▸ hkind)
  rw [(h b hb).spans, Frame.branches, hmore]
  rfl

theorem Draft.map_spans (kind : BlockKind) : (d.blocks.filter (·.kind = kind)).map Block.spans =
    (d.blocks.filter (·.kind = kind)).map fun b => b.frame.branches :=
  List.map_congr_left fun b hb => (h b (List.mem_filter.1 hb).1).spans

/-- The blocks of the diagram are those of the draft. -/
theorem Draft.frames_perm : d.toDiagram.frames.Perm (d.blocks.map Block.frame) := by
  have hone : ∀ kind, kind ≠ .alt →
      ((d.blocks.filter (·.kind = kind)).flatMap Block.spans).map (fun s => ⟨kind, s, []⟩) =
        (d.blocks.filter (·.kind = kind)).map Block.frame := by
    intro kind hkind
    rw [Draft.flatMap_spans h hkind, List.map_map]
    apply List.map_congr_left
    intro b hb
    obtain ⟨hb, hk⟩ := List.mem_filter.1 hb
    rw [decide_eq_true_eq] at hk
    have hmore := (h b hb).more_eq_nil (hk ▸ hkind)
    rw [Function.comp_apply, ← hk, ← hmore]
    rfl
  have halts : ((d.blocks.filter (·.kind = .alt)).map Block.spans).flatMap Frame.ofBranches =
      (d.blocks.filter (·.kind = .alt)).map Block.frame := by
    rw [Draft.map_spans h, List.flatMap_map, ← List.flatMap_pure_eq_map Block.frame]
    apply List.flatMap_congr
    intro b hb
    obtain ⟨hb, hk⟩ := List.mem_filter.1 hb
    rw [decide_eq_true_eq] at hk
    rw [Frame.branches, Frame.ofBranches, ← hk]
    rfl
  unfold Diagram.frames toDiagram
  dsimp only
  rw [hone .loop (by decide), hone .opt (by decide), halts, ← List.map_append, ← List.map_append]
  exact (filter_kinds d.blocks).map _

end

/-! ### The diagram -/

/-- The orders of a diagram are the numbers from 0 on, each once; what begins ends later; of two blocks, and of two
activations of a participant, one lies in the other or they are apart; and participants come by number. -/
structure Diagram.Ordered (d : Diagram) : Prop where
  numbered : Numbered d.orders d.orders.length
  /-- Each alternative has a branch. -/
  alts : [] ∉ d.alts
  joined : ∀ b ∈ d.frames, b.Joined
  nested : d.frames.Pairwise fun a b => a.Apart b ∨ a.Within b ∨ b.Within a
  forward : ∀ a ∈ d.activations, ∀ stop ∈ a.stop, a.start < stop
  active : d.activations.Pairwise fun a b =>
    a.participant = b.participant → a.Apart b ∨ a.Within b ∨ b.Within a
  positions : d.participants.map Participant.order = (List.range d.participants.length).map fun i : Nat => (i : Int)
  ids : d.participants.map Participant.id = (List.range d.participants.length).map Id.minted
  message_ends : ∀ m ∈ d.messages,
    m.source ∈ d.participants.map Participant.id ∧ m.target ∈ d.participants.map Participant.id
  note_participants : ∀ n ∈ d.notes, n.participants ⊆ d.participants.map Participant.id
  activation_participant : ∀ a ∈ d.activations, a.participant ∈ d.participants.map Participant.id

namespace Draft

variable {d : Draft}

theorem Ordered.closed (h : d.Ordered) (hinside : d.inside = []) : ∀ b ∈ d.blocks, b.Closed := by
  intro b hb
  have hopen : openBlocks d.blocks = [] := by
    have hplaces := h.inside
    rw [hinside, eq_comm, List.reverse_eq_nil_iff, List.map_eq_nil_iff] at hplaces
    exact hplaces
  have hstop : b.stop.isNone = false := by
    obtain ⟨i, hi⟩ := List.mem_iff_getElem?.1 hb
    have hnot := List.filter_eq_nil_iff.1 hopen (b, i) (List.mem_zipIdx_iff_getElem?.2 hi)
    simpa [Option.isSome_iff_ne_none] using hnot
  obtain ⟨first, more, hbranches, hkind⟩ := h.branches b hb
  exact .of hbranches hkind hstop (h.blocks.ascending _ (List.mem_map_of_mem hb))

theorem Ordered.orders_perm (h : d.Ordered) (hinside : d.inside = []) : d.toDiagram.orders.Perm d.orders := by
  have hclosed := h.closed hinside
  have hframes : (d.toDiagram.frames.flatMap Frame.orders).Perm
      ((d.blocks.map Block.stretch).flatMap Stretch.orders) := by
    refine ((frames_perm hclosed).flatMap_right _).trans ?_
    rw [List.flatMap_map, List.flatMap_map]
    exact List.Perm.flatMap_left _ fun b hb => (hclosed b hb).orders_perm
  have hactivations : (d.activations.map Activation.stretch).flatMap Stretch.orders =
      d.activations.flatMap Activation.orders := List.flatMap_map _ _ _
  unfold Diagram.orders orders
  rw [hactivations]
  exact (hframes.append_left _).append_right _

/-- The diagram of an ordered draft without open blocks. -/
theorem Ordered.toDiagram (h : d.Ordered) (hinside : d.inside = []) (hr : d.Resolved) : d.toDiagram.Ordered := by
  have hclosed := h.closed hinside
  have hframes := frames_perm hclosed
  have hids : d.toDiagram.participants.map Participant.id = (List.range d.participants.length).map Id.minted := by
    have hboth := congrArg (List.map Prod.fst) hr.numbered
    simpa [Draft.toDiagram, Function.comp_def] using hboth
  have hmem : ∀ {id}, d.Known id → id ∈ d.toDiagram.participants.map Participant.id := by
    rintro id ⟨i, hi, rfl⟩
    rw [hids]
    exact List.mem_map_of_mem (List.mem_range.2 hi)
  have hperm := h.orders_perm hinside
  constructor
  case numbered =>
    have hlen : d.toDiagram.orders.length = d.next := by
      rw [hperm.length_eq, h.numbered.length_eq, List.length_map, List.length_range]
    rw [hlen]
    exact hperm.trans h.numbered
  case alts =>
    intro hnil
    obtain ⟨b, hb, hspans⟩ := List.mem_map.1 hnil
    rw [(hclosed b (List.mem_filter.1 hb).1).spans] at hspans
    cases hspans
  case joined =>
    intro b hb
    obtain ⟨c, hc, rfl⟩ := List.mem_map.1 (hframes.mem_iff.1 hb)
    exact (hclosed c hc).joined
  case nested =>
    -- Stretches come in the order in which they begin, frames by kind: being nested or apart does not depend on that.
    have hsymm : ∀ {a b : Frame}, (a.Apart b ∨ a.Within b ∨ b.Within a) → b.Apart a ∨ b.Within a ∨ a.Within b :=
      fun h => h.imp Or.symm Or.symm
    rw [hframes.pairwise_iff hsymm, List.pairwise_map]
    have hboth := List.pairwise_map.1 (h.blocks.starts.and h.blocks.apart)
    refine hboth.imp_of_mem ?_
    intro a b ha hb hab
    exact ((hclosed a ha).nested (hclosed b hb) hab.1 (hab.2 rfl)).imp_right Or.inr
  case forward =>
    intro a ha stop hstop
    have hasc := h.activations.ascending _ (List.mem_map_of_mem ha)
    rw [Option.mem_def] at hstop
    simpa [Activation.stretch, Activation.orders, hstop] using hasc
  case active =>
    have hboth := List.pairwise_map.1 (h.activations.starts.and h.activations.apart)
    refine hboth.imp ?_
    intro a b hab howner
    exact (Activation.nested hab.1 (hab.2 (congrArg some howner))).imp_right Or.inr
  case positions =>
    have hboth := congrArg (List.map Prod.snd) hr.numbered
    simpa [Draft.toDiagram, Function.comp_def] using hboth
  case ids => rw [hids, Draft.toDiagram, List.length_map]
  case message_ends => exact fun m hm => ⟨hmem (hr.messages m hm).1, hmem (hr.messages m hm).2⟩
  case note_participants => exact fun n hn id hid => hmem (hr.notes n hn id hid)
  case activation_participant => exact fun a ha => hmem (hr.activations a ha)

end Draft

/-- Whatever text a diagram was read from, its orders fit together. -/
theorem ordered_of_read {stack : Stack} {s : Text} {d : Diagram} (h : (read stack s).outcome = .ok d) :
    d.Ordered := by
  obtain ⟨-, -, rfl⟩ := read_eq_ok_iff_statements.1 h
  obtain ⟨hordered, hinside⟩ := Draft.ordered_ofStatements (fitting_document (tokenize rule s))
  exact hordered.toDiagram hinside (Draft.resolved_ofStatements _)

/-- A meeting with an activation that begins in one block and ends in another, a loop inside an alternative, and an
option and an alternative that the end of the text closes. -/
def meeting : Diagram where
  participants := [
    { id := .minted 0, name := "Bo".toList, kind := .actor, shortName := some "B".toList },
    { id := .minted 1, name := "A".toList, order := 1 }]
  messages := [
    { source := .minted 1, target := .minted 0, label := "hi".toList },
    { source := .minted 1, target := .minted 1, type := .solidCross, order := 4 }]
  notes := [{ text := [], participants := [.minted 1, .minted 0], order := 8 }]
  activations := [
    { participant := .minted 0, start := 2, stop := some 9 }, { participant := .minted 1, start := 12 }]
  loops := [{ label := [], start := 3, stop := 5 }]
  alts := [
    [{ label := "x".toList, start := 1, stop := 6 }],
    [{ label := [], start := 10, stop := 11 }, { label := "y".toList, start := 11, stop := 13 }]]
  opts := [{ label := "\"%%\"".toList, start := 7, stop := 14 }]

/-- The text of the meeting.  It closes and continues blocks where it cannot. -/
def meetingText : Text :=
  ("end\nactor B as Bo\nA->>B:hi\nalt x\nactivate B loop\nelse no\nA-xA end end\nopt \"%%\"%%\n" ++
    "Note over A,B\ndeactivate B\nalt\nelse y\nactivate A").toList

theorem ordered_of_read_meeting : (read {} meetingText).outcome = .ok meeting ∧ meeting.Ordered := by
  have h := eq_ok_of_toOption (x := (read {} meetingText).outcome) (a := meeting) (by decide +kernel)
  exact ⟨h, ordered_of_read h⟩

end DiagramText.Sequence

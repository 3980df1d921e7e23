import DiagramText.Proofs.Sequence.Happenings
import DiagramText.Proofs.Sequence.Order
import Mathlib.Data.List.Nodup

/-!
# Diagrams that agree

Diagrams agree if they are the same but for how participants are given their keys (`Diagram.Agrees`).  Such diagrams are
written in the same way (`Diagram.Agrees.write_eq`).  A diagram that was read agrees with its ranked diagram: it is
sorted (`sorted_of_read`), and the rank of an order is the order itself (`Diagram.Ordered.rank_eq`).
-/

namespace DiagramText.Sequence

/-- All of a participant but how its key is given: by the name, or by a short name. -/
def Participant.shown (p : Participant) : Id × ParticipantKind × Text × Text × Int :=
  (p.id, p.kind, p.name, p.key, p.order)

/-- The same participants in the same order, and the same of all else. -/
structure Diagram.Agrees (d e : Diagram) : Prop where
  participants : d.participants.map Participant.shown = e.participants.map Participant.shown
  messages : d.messages = e.messages
  notes : d.notes = e.notes
  activations : d.activations = e.activations
  loops : d.loops = e.loops
  alts : d.alts = e.alts
  opts : d.opts = e.opts

/-! ### Writing -/

/-- The line of a participant says where the key is not the name. -/
private theorem line_eq_ite (p : Participant) : p.line = p.kind.word ++ ' ' :: formatKey p.key ++
    if p.key = p.name then [] else " as ".toList ++ p.name := by
  unfold Participant.line Participant.key
  rcases p.shortName with _ | _ | ⟨c, r⟩
  · simp
  · simp
  · simp only [ite_not]

namespace Diagram

variable {d e : Diagram}

theorem Agrees.sortedParticipants (h : d.Agrees e) :
    d.sortedParticipants.map Participant.shown = e.sortedParticipants.map Participant.shown := by
  have hsort : ∀ l : List Participant, (sortBy (fun a b => a.order ≤ b.order) l).map Participant.shown =
      sortBy (fun a b => a.2.2.2.2 ≤ b.2.2.2.2) (l.map Participant.shown) := by
    intro l
    rw [← map_sortBy]
    rfl
  unfold Diagram.sortedParticipants
  rw [hsort, hsort, h.participants]

theorem Agrees.reference? (h : d.Agrees e) (id : Id) : d.reference? id = e.reference? id := by
  have hfind : ∀ l : List Participant, (l.find? (·.id = id)).map (fun p => formatKey p.key) =
      ((l.map Participant.shown).find? (·.1 = id)).map fun p => formatKey p.2.2.2.1 := by
    intro l
    rw [List.find?_map, Option.map_map]
    rfl
  have hreverse := congrArg List.reverse h.sortedParticipants
  rw [← List.map_reverse, ← List.map_reverse] at hreverse
  unfold Diagram.reference?
  rw [hfind, hfind, hreverse]

/-- Diagrams that agree are written in the same way. -/
theorem Agrees.write_eq (h : d.Agrees e) (size : Int) : d.write size = e.write size := by
  have hlines : d.sortedParticipants.map (fun p => Text.indent size 1 ++ p.line) =
      e.sortedParticipants.map fun p => Text.indent size 1 ++ p.line := by
    have hshown : ∀ l : List Participant, l.map (fun p => Text.indent size 1 ++ p.line) =
        (l.map Participant.shown).map fun p => Text.indent size 1 ++ (p.2.1.word ++ ' ' :: formatKey p.2.2.2.1 ++
          if p.2.2.2.1 = p.2.2.1 then [] else " as ".toList ++ p.2.2.1) := by
      intro l
      rw [List.map_map]
      apply List.map_congr_left
      intro p _
      rw [line_eq_ite]
      rfl
    rw [hshown, hshown, h.sortedParticipants]
  have hreference : d.reference? = e.reference? := funext h.reference?
  have hmessage : d.messageEvent? = e.messageEvent? := by
    funext m
    unfold messageEvent?
    rw [hreference]
  have hnote : d.noteEvent? = e.noteEvent? := by
    funext n
    unfold noteEvent?
    rw [hreference]
  have hactivation : d.activationEvents = e.activationEvents := by
    funext a
    unfold activationEvents
    rw [hreference]
  have hevents : d.sortedEvents = e.sortedEvents := by
    unfold sortedEvents events
    rw [hmessage, hnote, hactivation, h.messages, h.notes, h.activations, h.loops, h.opts, h.alts]
  unfold write lines
  rw [hlines, hevents]

/-! ### Diagrams that were read -/

/-- A diagram in which everything comes by order. -/
structure Sorted (d : Diagram) : Prop where
  messages : d.messages.Pairwise fun a b => a.order < b.order
  notes : d.notes.Pairwise fun a b => a.order < b.order
  activations : d.activations.Pairwise fun a b => a.start < b.start
  loops : d.loops.Pairwise fun a b => a.start < b.start
  alts : d.alts.Pairwise fun a b => ranked.altStart a < ranked.altStart b
  opts : d.opts.Pairwise fun a b => a.start < b.start

end Diagram

theorem Draft.Ordered.sorted {d : Draft} (h : d.Ordered) (hinside : d.inside = []) : d.toDiagram.Sorted := by
  have hclosed := h.closed hinside
  have hblocks : d.blocks.Pairwise fun a b => a.frame.start < b.frame.start := by
    refine (List.pairwise_map.1 h.blocks.starts).imp_of_mem ?_
    intro a b ha hb hab
    exact hab _ (by simp [(hclosed a ha).orders]) _ (by simp [(hclosed b hb).orders])
  have hkind : ∀ kind, (d.blocks.filter (·.kind = kind)).Pairwise fun a b => a.frame.start < b.frame.start :=
    fun kind => hblocks.sublist List.filter_sublist
  have hone : ∀ kind, kind ≠ .alt →
      ((d.blocks.filter (·.kind = kind)).flatMap Block.spans).Pairwise fun a b => a.start < b.start := by
    intro kind hk
    rw [Draft.flatMap_spans hclosed hk, List.pairwise_map]
    exact hkind kind
  refine ⟨h.messages, h.notes, ?_, hone .loop (by decide), ?_, hone .opt (by decide)⟩
  · exact (List.pairwise_map.1 h.activations.starts).imp fun hab => hab _ rfl _ List.mem_cons_self
  · rw [Draft.toDiagram, Draft.map_spans hclosed, List.pairwise_map]
    exact hkind .alt

/-- Whatever text a diagram was read from, everything in it comes by order. -/
theorem sorted_of_read {stack : Stack} {s : Text} {d : Diagram} (h : (read stack s).outcome = .ok d) : d.Sorted := by
  obtain ⟨-, -, rfl⟩ := read_eq_ok_iff_statements.1 h
  obtain ⟨hordered, hinside⟩ := Draft.ordered_ofStatements (fitting_document (tokenize rule s))
  exact hordered.sorted hinside

private theorem countP_range (n j : Nat) : (List.range n).countP (fun i => i < j) = min n j := by
  induction n with
  | zero => simp
  | succ n ih =>
    rw [List.range_succ, List.countP_append, ih, List.countP_singleton]
    split
    · rename_i hlt
      rw [decide_eq_true_eq] at hlt
      omega
    · rename_i hlt
      rw [decide_eq_true_eq] at hlt
      omega

private theorem sortBy_of_lt {α : Type} {key : α → Int} {l : List α} (h : l.Pairwise fun a b => key a < key b) :
    sortBy (fun a b => key a ≤ key b) l = l :=
  sortBy_of_pairwise (h.imp fun hab => decide_eq_true (Int.le_of_lt hab))

/-- The rank of a participant shows the same key. -/
private theorem shown_rank {i : Nat} {p : Participant} (hid : p.id = .minted i) (horder : p.order = i) :
    p.shown = (p.rank i).shown := by
  have hkey : (p.rank i).key = p.key := by
    unfold Participant.rank Participant.display? Participant.key
    rcases p.shortName with _ | _ | ⟨c, r⟩
    · rfl
    · rfl
    · by_cases hname : c :: r = p.name <;> simp [hname]
  rw [Participant.shown, Participant.shown, hkey, hid, horder]
  rfl

/-- Where a branch ends: at the end of the block, or where the next one begins. -/
private theorem stop_mem_orders {b : Frame} (hb : b.Joined) {s : Span} (hs : s ∈ b.branches) : s.stop ∈ b.orders := by
  have hchain : ∀ {l : List Span}, (l.IsChain fun s t => s.stop = t.start) → ∀ s ∈ l,
      (∃ t ∈ l.getLast?, s.stop = t.stop) ∨ ∃ t ∈ l.tail, s.stop = t.start := by
    intro l hl
    induction l with
    | nil => simp
    | cons s l ih =>
      rw [List.forall_mem_cons]
      cases l with
      | nil => exact ⟨Or.inl ⟨s, rfl, rfl⟩, by simp⟩
      | cons t l =>
        refine ⟨Or.inr ⟨t, List.mem_cons_self, hl.rel⟩, ?_⟩
        intro u hu
        rw [List.getLast?_cons_cons, List.tail_cons]
        exact (ih hl.tail u hu).imp_right fun ⟨v, hv, huv⟩ => ⟨v, List.mem_cons_of_mem t hv, huv⟩
  rcases hchain hb.chained s hs with ⟨t, ht, hst⟩ | ⟨t, ht, hst⟩
  · have hstop : b.stop = t.stop := by
      rw [Option.mem_def] at ht
      rw [Frame.stop, ht]
      rfl
    rw [hst, ← hstop]
    simp [Frame.orders]
  · rw [hst, Frame.orders]
    exact List.mem_cons_of_mem _ (List.mem_cons_of_mem _ (List.mem_map_of_mem ht))

namespace Diagram.Ordered

variable {d : Diagram} (h : d.Ordered)
include h

/-! ### Coherence -/

theorem nodup_ids : (d.participants.map Participant.id).Nodup := by
  rw [h.ids]
  exact List.nodup_range.map fun i j hij => Id.minted.inj hij

/-- A block that begins in another one lies in it. -/
private theorem within {a b : Frame} (ha : a ∈ d.frames) (hb : b ∈ d.frames) (hstart : a.start < b.start)
    (hstop : b.start < a.stop) : b.Within a := by
  have hsymm : Std.Symm fun a b : Frame => a.Apart b ∨ a.Within b ∨ b.Within a :=
    ⟨fun a b hab => hab.imp Or.symm Or.symm⟩
  have hne : a ≠ b := by
    rintro rfl
    omega
  have hforward := (h.joined b hb).start_lt_stop
  rcases h.nested.forall ha hb hne with (hlt | hlt) | hwithin | hwithin
  · omega
  · omega
  · have := hwithin.start
    omega
  · exact hwithin

/-- The parts of a diagram that was read fit together. -/
theorem coherent (hnotes : ∀ n ∈ d.notes, n.participants ≠ []) : d.Coherent where
  ids := h.nodup_ids
  message_ends := h.message_ends
  note_participants n hn := ⟨hnotes n hn, h.note_participants n hn⟩
  activation_participant := h.activation_participant
  alts := h.alts
  orders := h.numbered.nodup_iff.2 (List.nodup_range.map fun i j hij => Int.ofNat.inj hij)
  joined := h.joined
  nested a ha b hb hstart hstop := (h.within ha hb hstart hstop).stop
  outside a ha b hb hstart hstop := by
    have hforward := (h.joined b hb).start_lt_stop
    exact (h.within ha hb hstart (by omega)).branches
  forward := h.forward
  active a ha b hb howner hstart stop hstop hlt := by
    have hsymm : Std.Symm fun a b : Activation Id =>
        a.participant = b.participant → a.Apart b ∨ a.Within b ∨ b.Within a :=
      ⟨fun a b hab howner => (hab howner.symm).imp Or.symm Or.symm⟩
    have hne : a ≠ b := by
      rintro rfl
      omega
    rcases h.active.forall ha hb hne howner with (⟨t, ht, htlt⟩ | ⟨t, ht, htlt⟩) | hwithin | hwithin
    · rw [Option.mem_unique hstop ht] at hlt
      omega
    · have := h.forward b hb t ht
      omega
    · have := hwithin.start
      omega
    · exact hwithin.stop stop hstop

/-! ### Ranks -/

/-- The rank of an order is the order. -/
theorem rank_eq {x : Int} (hx : x ∈ d.orders) : (d.rank x : Int) = x := by
  obtain ⟨j, hj, rfl⟩ := List.mem_map.1 (h.numbered.mem_iff.1 hx)
  rw [List.mem_range] at hj
  have hcount : d.rank (j : Int) = (List.range d.orders.length).countP fun i => i < j := by
    rw [Diagram.rank, h.numbered.countP_eq, List.countP_map]
    simp [Function.comp_def]
  rw [hcount, countP_range]
  omega

theorem sortedParticipants_eq : d.sortedParticipants = d.participants := by
  have hsorted : d.participants.Pairwise fun a b => a.order < b.order := by
    rw [← List.pairwise_map, h.positions, List.pairwise_map]
    exact List.pairwise_lt_range.imp fun hij => Int.ofNat_lt.2 hij
  exact sortBy_of_lt hsorted

/-- A participant keeps its id. -/
theorem newId_eq {id : Id} (hid : id ∈ d.participants.map Participant.id) : d.newId id = id := by
  have hnodup := h.nodup_ids
  rw [h.ids] at hid hnodup
  obtain ⟨i, hi, rfl⟩ := List.mem_map.1 hid
  rw [List.mem_range] at hi
  have hget := hnodup.idxOf_getElem i (by simpa using hi)
  rw [List.getElem_map, List.getElem_range] at hget
  rw [Diagram.newId, h.sortedParticipants_eq, h.ids, hget]

/-- Spans keep their orders. -/
private theorem rankSpan_eq {b : Frame} (hb : b ∈ d.frames) {s : Span} (hs : s ∈ b.branches) : d.rankSpan s = s := by
  have hstart : s.start ∈ d.orders := by
    rcases List.mem_cons.1 hs with rfl | hmore
    · exact order_mem_orders (h := .opening b) hb
    · exact order_mem_orders (h := .branch b s) ⟨hb, hmore⟩
  have hstop : s.stop ∈ d.orders := by
    have hmem := List.mem_flatMap_of_mem hb (stop_mem_orders (h.joined b hb) hs)
    simp [Diagram.orders, hmem]
  rw [Diagram.rankSpan, h.rank_eq hstart, h.rank_eq hstop]

private theorem rankMessage_eq {m : Message Id} (hm : m ∈ d.messages) : d.rankMessage m = m := by
  obtain ⟨hsource, htarget⟩ := h.message_ends m hm
  have horder : (d.rank m.order : Int) = m.order := h.rank_eq (order_mem_orders (h := .message m) hm)
  rw [Diagram.rankMessage, h.newId_eq hsource, h.newId_eq htarget, horder]

private theorem rankNote_eq {n : Note Id} (hn : n ∈ d.notes) : d.rankNote n = n := by
  have hids : n.participants.map d.newId = n.participants := by
    rw [List.map_congr_left fun id hid => h.newId_eq (h.note_participants n hn hid), List.map_id']
  have horder : (d.rank n.order : Int) = n.order := h.rank_eq (order_mem_orders (h := .note n) hn)
  rw [Diagram.rankNote, hids, horder]

private theorem rankActivation_eq {a : Activation Id} (ha : a ∈ d.activations) : d.rankActivation a = a := by
  have hstart : (d.rank a.start : Int) = a.start := h.rank_eq (order_mem_orders (h := .activate a) ha)
  have hstop : a.stop.map (fun stop => (d.rank stop : Int)) = a.stop := by
    cases hs : a.stop with
    | none => rfl
    | some stop =>
      have horder : (d.rank stop : Int) = stop := h.rank_eq (order_mem_orders (h := .deactivate a stop) ⟨ha, hs⟩)
      rw [Option.map_some, horder]
  rw [Diagram.rankActivation, h.newId_eq (h.activation_participant a ha), hstart, hstop]

private theorem shown_sortedParticipants : d.participants.map Participant.shown =
    (d.sortedParticipants.mapIdx Participant.rank).map Participant.shown := by
  rw [h.sortedParticipants_eq]
  apply List.ext_getElem?
  intro i
  rw [List.getElem?_map, List.getElem?_map, List.getElem?_mapIdx, Option.map_map]
  cases hi : d.participants[i]? with
  | none => rfl
  | some p =>
    have hid := congrArg (fun l => l[i]?) h.ids
    have horder := congrArg (fun l => l[i]?) h.positions
    obtain ⟨hlt, -⟩ := List.getElem?_eq_some_iff.1 hi
    simp only [List.getElem?_map, hi, List.getElem?_range hlt, Option.map_some, Option.some.injEq] at hid horder
    simp only [Option.map_some, Function.comp_apply, Option.some.injEq]
    exact shown_rank hid horder

/-- A diagram that was read agrees with its ranked diagram. -/
theorem agrees_ranked (hs : d.Sorted) : d.Agrees d.ranked := by
  have hsame : ∀ {α : Type} {f : α → α} {l : List α}, (∀ a ∈ l, f a = a) → l = l.map f := by
    intro α f l hl
    rw [List.map_congr_left hl, List.map_id']
  constructor
  case participants => exact h.shown_sortedParticipants
  case messages =>
    rw [Diagram.ranked, Diagram.sortedMessages, sortBy_of_lt hs.messages]
    exact hsame fun m hm => h.rankMessage_eq hm
  case notes =>
    rw [Diagram.ranked, sortBy_of_lt hs.notes]
    exact hsame fun n hn => h.rankNote_eq hn
  case activations =>
    rw [Diagram.ranked, sortBy_of_lt hs.activations]
    exact hsame fun a ha => h.rankActivation_eq ha
  case loops =>
    rw [Diagram.ranked, sortBy_of_lt hs.loops]
    apply hsame
    intro s hsl
    have hb : ⟨.loop, s, []⟩ ∈ d.frames := by simp [Diagram.frames, hsl]
    exact h.rankSpan_eq hb List.mem_cons_self
  case alts =>
    rw [Diagram.ranked, sortBy_of_lt hs.alts]
    apply hsame
    intro spans hspans
    cases spans with
    | nil => exact absurd hspans h.alts
    | cons first more =>
      have hb : ⟨.alt, first, more⟩ ∈ d.frames :=
        List.mem_append_right _ (List.mem_flatMap.2 ⟨_, hspans, List.mem_singleton_self _⟩)
      exact (hsame fun s hs => h.rankSpan_eq hb hs).symm
  case opts =>
    rw [Diagram.ranked, sortBy_of_lt hs.opts]
    apply hsame
    intro s hsl
    have hb : ⟨.opt, s, []⟩ ∈ d.frames := by simp [Diagram.frames, hsl]
    exact h.rankSpan_eq hb List.mem_cons_self

end Diagram.Ordered

end DiagramText.Sequence

import DiagramText.Sequence.Statement
import DiagramText.Sequence.Writer
import DiagramText.Proofs.Sequence.Ranking
import Mathlib.Data.List.Nodup

/-!
# What happens in a diagram

A line of a sequence text comes from a message, a note, an end or a branch of a block or a mark of an activation: a
`Happening`.  The happenings by order are the `timeline` of a diagram.  Its lines are those that are written
(`sortedEvents_eq`), it ascends strictly (`pairwise_timeline`), and a happening comes at the place that is the rank of
its order (`rank_eq_length`).
-/

namespace DiagramText.Sequence

theorem Event.le_trans (a b c : Event) (hab : a.le b) (hbc : b.le c) : a.le c := by
  simp only [Event.le, Bool.or_eq_true, Bool.and_eq_true, decide_eq_true_eq] at hab hbc ⊢
  omega

theorem Event.le_total (a b : Event) : a.le b ∨ b.le a := by
  simp only [Event.le, Bool.or_eq_true, Bool.and_eq_true, decide_eq_true_eq]
  omega

/-- The indents hide none of the events. -/
theorem map_snd_depths (n : Nat) (es : List Event) : (depths n es).map Prod.snd = es := by
  fun_induction depths n es with
  | case1 => rfl
  | _ => rename_i ih; rw [List.map_cons, ih]

/-- What a line behind the participants is written for. -/
inductive Happening where
  | message (m : Message Id)
  | note (n : Note Id)
  | opening (b : Frame)
  | branch (b : Frame) (s : Span)
  | closing (b : Frame)
  | activate (a : Activation Id)
  | deactivate (a : Activation Id) (stop : Int)
deriving DecidableEq

namespace Happening

/-- When it happens. -/
def order : Happening → Int
  | message m => m.order
  | note n => n.order
  | opening b => b.start
  | branch _ s => s.start
  | closing b => b.stop
  | activate a => a.start
  | deactivate _ stop => stop

/-- What is written of it. -/
def event (key : Id → Text) : Happening → Event
  | message m =>
    ⟨m.order, .leaf, 0,
      formatKey (key m.source) ++ m.type.symbol ++ formatKey (key m.target) ++ colonText m.label⟩
  | note n =>
    ⟨n.order, .leaf, 0, "Note ".toList ++ n.position.words ++
      ' ' :: [','].intercalate (n.participants.map fun id => formatKey (key id)) ++ colonText n.text⟩
  | opening b => ⟨b.start, .opening, b.start - b.stop, keywordText b.kind.word b.first.label⟩
  | branch _ s => ⟨s.start, .branch, 0, keywordText (Kind.branch []).text s.label⟩
  | closing b => ⟨b.stop, .closing, -b.start, Kind.closing.text⟩
  | activate a => ⟨a.start, .mark, 0, Kind.activate.text ++ ' ' :: formatKey (key a.participant)⟩
  | deactivate a stop => ⟨stop, .mark, 0, Kind.deactivate.text ++ ' ' :: formatKey (key a.participant)⟩

/-- What is read from its line. -/
def statement (key : Id → Text) : Happening → Statement
  | message m => .message (key m.source) (key m.target) m.type m.label
  | note n => .note n.position (n.participants.map key) n.text
  | opening b => .opening b.kind b.first.label {}
  | branch _ s => .branch s.label
  | closing _ => .closing
  | activate a => .activate (key a.participant)
  | deactivate a _ => .deactivate (key a.participant)

theorem order_event (key : Id → Text) (h : Happening) : (h.event key).order = h.order := by
  cases h <;> rfl

def message? : Happening → Option (Message Id)
  | message m => some m
  | _ => none

def note? : Happening → Option (Note Id)
  | note n => some n
  | _ => none

/-- The block that opens. -/
def frame? : Happening → Option Frame
  | opening b => some b
  | _ => none

/-- The activation that begins. -/
def activation? : Happening → Option (Activation Id)
  | activate a => some a
  | _ => none

theorem order_message? {h : Happening} {m : Message Id} (hm : h.message? = some m) : m.order = h.order := by
  cases h <;> cases hm
  rfl

theorem order_note? {h : Happening} {n : Note Id} (hn : h.note? = some n) : n.order = h.order := by
  cases h <;> cases hn
  rfl

theorem start_frame? {h : Happening} {b : Frame} (hb : h.frame? = some b) : b.start = h.order := by
  cases h <;> cases hb
  rfl

theorem start_activation? {h : Happening} {a : Activation Id} (ha : h.activation? = some a) : a.start = h.order := by
  cases h <;> cases ha
  rfl

/-- Elements of happenings that ascend ascend. -/
theorem pairwise_filterMap {β : Type} {f : Happening → Option β} {key : β → Int}
    (hkey : ∀ {h b}, f h = some b → key b = h.order) {hs : List Happening}
    (hsorted : hs.Pairwise fun a b => a.order < b.order) : (hs.filterMap f).Pairwise fun a b => key a < key b := by
  apply hsorted.filterMap
  intro i j hij a hia b hjb
  rw [hkey hia, hkey hjb]
  exact hij

/-- It comes from an element of the diagram. -/
def Of (d : Diagram) : Happening → Prop
  | message m => m ∈ d.messages
  | note n => n ∈ d.notes
  | opening b => b ∈ d.frames
  | branch b s => b ∈ d.frames ∧ s ∈ b.more
  | closing b => b ∈ d.frames
  | activate a => a ∈ d.activations
  | deactivate a stop => a ∈ d.activations ∧ stop ∈ a.stop

end Happening

def Frame.happenings (b : Frame) : List Happening := .opening b :: .closing b :: b.more.map (.branch b)

def Activation.happenings (a : Activation Id) : List Happening :=
  .activate a :: a.stop.toList.map (.deactivate a)

namespace Diagram

variable (d : Diagram)

def happenings : List Happening :=
  d.messages.map .message ++ d.notes.map .note ++ d.frames.flatMap Frame.happenings ++
    d.activations.flatMap Activation.happenings

/-- The happenings by order. -/
def timeline : List Happening := sortBy (fun a b => a.order ≤ b.order) d.happenings

/-- What a text calls the participant with an id. -/
def keyOf (id : Id) : Text := ((d.participant? id).map Participant.key).getD []

theorem map_order_happenings : d.happenings.map Happening.order = d.orders := by
  have hframe : ∀ b : Frame, b.happenings.map Happening.order = b.orders := by
    intro b
    simp only [Frame.happenings, Frame.orders, List.map_cons, List.map_map]
    rfl
  have hactivation : ∀ a : Activation Id, a.happenings.map Happening.order = a.orders := by
    intro a
    simp only [Activation.happenings, Activation.orders, List.map_cons, List.map_map]
    have hid : (Happening.order ∘ Happening.deactivate a) = id := rfl
    rw [hid, List.map_id]
    rfl
  simp only [happenings, orders, List.map_append, List.map_map, List.map_flatMap, hframe, hactivation]
  rfl

/-! ### References -/

section

variable {d} (hd : d.Coherent)
include hd

theorem keyOf_id {p : Participant} (hp : p ∈ d.participants) : d.keyOf p.id = p.key := by
  unfold keyOf participant?
  rw [Keyed.find?_of_nodup hd.ids hp]
  rfl

theorem reference?_eq {id : Id} (h : id ∈ d.participants.map Participant.id) :
    d.reference? id = some (formatKey (d.keyOf id)) := by
  obtain ⟨p, hp, rfl⟩ := List.mem_map.1 h
  have hsorted : (d.sortedParticipants.reverse.map Participant.id).Nodup := by
    have hperm : d.sortedParticipants.reverse.Perm d.participants :=
      (List.reverse_perm _).trans (sortBy_perm _ _)
    exact (hperm.map _).nodup_iff.2 hd.ids
  have hmem : p ∈ d.sortedParticipants.reverse := List.mem_reverse.2 (mem_sortedParticipants.2 hp)
  rw [keyOf_id hd hp, reference?, Keyed.find?_of_nodup hsorted hmem]
  rfl

private theorem messageEvent?_eq {m : Message Id} (hm : m ∈ d.messages) :
    d.messageEvent? m = some ((Happening.message m).event d.keyOf) := by
  obtain ⟨hs, ht⟩ := hd.message_ends m hm
  rw [messageEvent?, reference?_eq hd hs, reference?_eq hd ht]
  rfl

private theorem noteEvent?_eq {n : Note Id} (hn : n ∈ d.notes) :
    d.noteEvent? n = some ((Happening.note n).event d.keyOf) := by
  obtain ⟨hne, hsub⟩ := hd.note_participants n hn
  have hnames : n.participants.filterMap d.reference? = n.participants.map fun id => formatKey (d.keyOf id) := by
    rw [← List.filterMap_eq_map]
    apply List.filterMap_congr
    intro id hid
    exact reference?_eq hd (hsub hid)
  rw [noteEvent?, hnames]
  cases hp : n.participants with
  | nil => exact absurd hp hne
  | cons id ids => simp only [List.map_cons, Happening.event, hp]

private theorem activationEvents_eq {a : Activation Id} (ha : a ∈ d.activations) :
    d.activationEvents a = a.happenings.map (Happening.event d.keyOf) := by
  rw [activationEvents, reference?_eq hd (hd.activation_participant a ha)]
  simp only [Activation.happenings, List.map_cons, List.map_map]
  rfl

omit hd in
private theorem altEvents_eq (key : Id → Text) (spans : List Span) :
    altEvents spans = (Frame.ofBranches spans).flatMap fun b => b.happenings.map (Happening.event key) := by
  cases spans with
  | nil => rfl
  | cons first more =>
    simp only [altEvents, Frame.ofBranches, List.flatMap_cons, List.flatMap_nil, List.append_nil, Frame.happenings,
      List.map_cons, List.map_map]
    rfl

omit hd in
/-- What is written of the blocks are the lines of their happenings. -/
theorem frameEvents_eq (d : Diagram) (key : Id → Text) :
    d.loops.flatMap (fun b => blockEvents .loop b.label b.start b.stop) ++
        d.opts.flatMap (fun b => blockEvents .opt b.label b.start b.stop) ++ d.alts.flatMap altEvents =
      d.frames.flatMap fun b => b.happenings.map (Happening.event key) := by
  have halts : altEvents = fun spans =>
      (Frame.ofBranches spans).flatMap fun b => b.happenings.map (Happening.event key) := funext (altEvents_eq key)
  simp only [frames, List.flatMap_append, List.flatMap_map, List.flatMap_assoc, halts]
  rfl

/-- What is written behind the participants are the lines of the happenings. -/
theorem events_eq : d.events = d.happenings.map (Happening.event d.keyOf) := by
  have hmessages : d.messages.filterMap d.messageEvent? =
      d.messages.map fun m => (Happening.message m).event d.keyOf := by
    rw [← List.filterMap_eq_map]
    exact List.filterMap_congr fun m hm => messageEvent?_eq hd hm
  have hnotes : d.notes.filterMap d.noteEvent? = d.notes.map fun n => (Happening.note n).event d.keyOf := by
    rw [← List.filterMap_eq_map]
    exact List.filterMap_congr fun n hn => noteEvent?_eq hd hn
  have hactivations : d.activations.flatMap d.activationEvents =
      d.activations.flatMap fun a => a.happenings.map (Happening.event d.keyOf) :=
    List.flatMap_congr fun a ha => activationEvents_eq hd ha
  have hframes := frameEvents_eq d d.keyOf
  simp only [List.append_assoc] at hframes
  simp only [events, happenings, List.map_append, List.map_map, List.map_flatMap, List.append_assoc, hmessages,
    hnotes, hactivations]
  rw [← hframes]
  simp only [List.append_assoc]
  rfl

end

/-! ### The timeline -/

section

private theorem order_le_trans (a b c : Happening) (hab : decide (a.order ≤ b.order) = true)
    (hbc : decide (b.order ≤ c.order) = true) : decide (a.order ≤ c.order) = true := by
  simp only [decide_eq_true_eq] at hab hbc ⊢
  omega

private theorem order_le_total (a b : Happening) :
    decide (a.order ≤ b.order) = true ∨ decide (b.order ≤ a.order) = true := by
  simp only [decide_eq_true_eq]
  omega

variable {d} (hd : d.Coherent)

private theorem mem_happenings {h : Happening} : h ∈ d.happenings ↔ h.Of d := by
  simp only [happenings, Frame.happenings, Activation.happenings, List.mem_append, List.mem_map, List.mem_flatMap,
    List.mem_cons, Option.mem_toList]
  cases h <;> simp [Happening.Of]

theorem mem_timeline {h : Happening} : h ∈ d.timeline ↔ h.Of d := mem_sortBy.trans mem_happenings

theorem timeline_perm : d.timeline.Perm d.happenings := sortBy_perm _ _

theorem map_order_timeline : (d.timeline.map Happening.order).Perm d.orders :=
  map_order_happenings d ▸ timeline_perm.map Happening.order

theorem order_mem_orders {h : Happening} (hh : h.Of d) : h.order ∈ d.orders :=
  map_order_timeline.subset (List.mem_map_of_mem (mem_timeline.2 hh))

include hd

/-- No two happenings come at one order. -/
theorem pairwise_timeline : d.timeline.Pairwise fun a b => a.order < b.order := by
  have hle : d.timeline.Pairwise fun a b => decide (a.order ≤ b.order) = true :=
    pairwise_sortBy order_le_trans order_le_total _
  have hne : d.timeline.Pairwise fun a b => a.order ≠ b.order := by
    rw [← List.pairwise_map]
    exact map_order_timeline.nodup_iff.2 hd.orders
  refine hle.imp₂ ?_ hne
  intro a b hab hab'
  simp only [decide_eq_true_eq] at hab
  omega

theorem eq_of_order_eq {a b : Happening} (ha : a.Of d) (hb : b.Of d) (h : a.order = b.order) : a = b :=
  List.inj_on_of_nodup_map (map_order_timeline.nodup_iff.2 hd.orders) (mem_timeline.2 ha) (mem_timeline.2 hb) h

/-- A happening comes at the place that is the rank of its order. -/
theorem rank_eq_length {before after : List Happening} {h : Happening} (ht : d.timeline = before ++ h :: after) :
    d.rank h.order = before.length := by
  have hsorted := pairwise_timeline hd
  rw [ht, List.pairwise_append, List.pairwise_cons] at hsorted
  have hbefore : ∀ a ∈ before, a.order < h.order := fun a ha => hsorted.2.2 a ha h List.mem_cons_self
  have hcount : d.rank h.order = d.timeline.countP fun a => a.order < h.order := by
    rw [rank, ← map_order_timeline.countP_eq, List.countP_map]
    rfl
  rw [hcount, ht, List.countP_append, List.countP_eq_length.2 (by simpa using hbefore), List.countP_cons,
    List.countP_eq_zero.2]
  · simp
  · intro a ha
    have := hsorted.2.1.1 a ha
    simp only [decide_eq_true_eq]
    omega

/-- What is written behind the participants are the lines of the timeline. -/
theorem sortedEvents_eq : d.sortedEvents = d.timeline.map (Happening.event d.keyOf) := by
  have hmem : ∀ e, e ∈ d.events ↔ ∃ h : Happening, h.Of d ∧ h.event d.keyOf = e := by
    intro e
    rw [events_eq hd, List.mem_map]
    exact exists_congr fun h => and_congr_left fun _ => mem_happenings
  apply sortBy_eq_of_perm Event.le_trans Event.le_total
  · intro a ha b hb hab hba
    obtain ⟨h, hh, rfl⟩ := (hmem a).1 ha
    obtain ⟨i, hi, rfl⟩ := (hmem b).1 hb
    simp only [Event.le, Bool.or_eq_true, Bool.and_eq_true, decide_eq_true_eq, Happening.order_event] at hab hba
    rw [eq_of_order_eq hd hh hi (by omega)]
  · rw [List.pairwise_map]
    refine (pairwise_timeline hd).imp ?_
    intro a b hab
    simp only [Event.le, Bool.or_eq_true, decide_eq_true_eq, Happening.order_event]
    exact Or.inl hab
  · rw [events_eq hd]
    exact timeline_perm.symm.map _

end

end Diagram

end DiagramText.Sequence

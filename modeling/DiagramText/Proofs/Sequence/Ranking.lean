import DiagramText.Sequence.Basic
import DiagramText.Proofs.Keyed
import DiagramText.Proofs.Sorting
import DiagramText.Proofs.Text.Parts
import Mathlib.Data.List.Basic
import Mathlib.Data.List.Chain
import Mathlib.Data.List.Infix

/-!
# The ranks of orders

Writing a diagram and reading it back keeps which of two orders comes first, but not the orders themselves: what comes
back is `Diagram.ranked`, in which everything is sorted, each order is its rank among the orders of the diagram, and
the participants are numbered.  `Diagram.Writable` says of which diagrams the text keeps everything else, and
`Diagram.Coherent` which of these conditions are about references and orders.
-/

namespace DiagramText.Sequence

/-! ### Blocks -/

/-- A block of a diagram with its branches; a loop and an option have one. -/
structure Frame where
  kind : BlockKind
  first : Span
  more : List Span := []
deriving DecidableEq, Repr

namespace Frame

def branches (b : Frame) : List Span := b.first :: b.more

def start (b : Frame) : Int := b.first.start

/-- The end of the last branch. -/
def stop (b : Frame) : Int := (b.branches.getLast?.getD b.first).stop

/-- The block of an alternative, if it has branches. -/
def ofBranches : List Span → List Frame
  | [] => []
  | first :: more => [⟨.alt, first, more⟩]

/-- The orders at which a line of the block is written. -/
def orders (b : Frame) : List Int := b.start :: b.stop :: b.more.map Span.start

/-- Each branch begins before it ends, and where the one before it ends. -/
structure Joined (b : Frame) : Prop where
  forward : ∀ s ∈ b.branches, s.start < s.stop
  chained : b.branches.IsChain fun s t => s.stop = t.start

instance (b : Frame) : Decidable b.Joined :=
  decidable_of_iff ((∀ s ∈ b.branches, s.start < s.stop) ∧ b.branches.IsChain fun s t => s.stop = t.start)
    ⟨fun h => ⟨h.1, h.2⟩, fun h => ⟨h.forward, h.chained⟩⟩

private theorem chained_starts {l : List Span} (hf : ∀ s ∈ l, s.start < s.stop)
    (hc : l.IsChain fun s t => s.stop = t.start) :
    l.Pairwise (fun s t => s.start < t.start) ∧ ∀ s ∈ l, ∀ t ∈ l.getLast?, s.start < t.stop := by
  induction l with
  | nil => exact ⟨List.Pairwise.nil, by simp⟩
  | cons s l ih =>
    obtain ⟨hpair, hlast⟩ := ih (fun t ht => hf t (List.mem_cons_of_mem s ht)) hc.tail
    have hs := hf s List.mem_cons_self
    cases l with
    | nil =>
      refine ⟨List.pairwise_singleton _ _, ?_⟩
      intro t ht u hu
      rw [List.mem_singleton.1 ht]
      cases hu
      exact hs
    | cons t l =>
      have hst : s.stop = t.start := hc.rel
      have hfirst : ∀ u ∈ t :: l, t.start ≤ u.start := by
        intro u hu
        rcases List.mem_cons.1 hu with rfl | hu
        · exact Int.le_refl _
        · exact Int.le_of_lt (List.rel_of_pairwise_cons hpair hu)
      constructor
      · refine List.pairwise_cons.2 ⟨?_, hpair⟩
        intro u hu
        have := hfirst u hu
        omega
      · intro u hu v hv
        rw [List.getLast?_cons_cons] at hv
        rcases List.mem_cons.1 hu with rfl | hu
        · have := hlast t List.mem_cons_self v hv
          omega
        · exact hlast u hu v hv

variable {b : Frame}

theorem Joined.pairwise (h : b.Joined) : b.branches.Pairwise fun s t => s.start < t.start :=
  (chained_starts h.forward h.chained).1

theorem Joined.start_lt (h : b.Joined) {s : Span} (hs : s ∈ b.more) : b.start < s.start :=
  List.rel_of_pairwise_cons h.pairwise hs

theorem Joined.lt_stop (h : b.Joined) {s : Span} (hs : s ∈ b.branches) : s.start < b.stop := by
  have hlast := (chained_starts h.forward h.chained).2 s hs
  unfold stop
  rw [branches, List.getLast?_cons] at hlast ⊢
  exact hlast _ rfl

theorem Joined.start_lt_stop (h : b.Joined) : b.start < b.stop := h.lt_stop List.mem_cons_self

end Frame

/-! ### Names -/

/-- The name that stands behind `as` in the line of a participant. -/
def Participant.display? (p : Participant) : Option Text :=
  match p.shortName with
  | some (c :: r) => if c :: r ≠ p.name then some p.name else none
  | _ => none

theorem Participant.getD_display? (p : Participant) : p.display?.getD p.key = p.name := by
  unfold display? key
  rcases p.shortName with _ | _ | ⟨c, r⟩
  · rfl
  · rfl
  · dsimp only
    split
    · rfl
    · rename_i h
      exact Decidable.not_not.1 h

theorem Participant.display?_eq (p : Participant) : p.display? = if p.key = p.name then none else some p.name := by
  unfold display? key
  rcases p.shortName with _ | _ | ⟨c, r⟩
  · simp
  · simp
  · simp only [ne_eq, ite_not]

/-! ### Orders -/

/-- The orders at which an activation begins and ends. -/
def Activation.orders (a : Activation Id) : List Int := a.start :: a.stop.toList

/-- A participant who is the number `i` by order. -/
def Participant.rank (i : Nat) (p : Participant) : Participant :=
  { p with id := .minted i, shortName := p.display?.map fun _ => p.key, order := i }

namespace Diagram

variable (d : Diagram)

/-- The loops, options and alternatives. -/
def frames : List Frame :=
  d.loops.map (fun s => ⟨.loop, s, []⟩) ++ d.opts.map (fun s => ⟨.opt, s, []⟩) ++ d.alts.flatMap Frame.ofBranches

/-- The orders at which a line is written. -/
def orders : List Int :=
  d.messages.map Message.order ++ d.notes.map Note.order ++ d.frames.flatMap Frame.orders ++
    d.activations.flatMap Activation.orders

/-- How many orders come before this one. -/
def rank (x : Int) : Nat := d.orders.countP (· < x)

private theorem countP_lt {l : List Int} {x y : Int} (hx : x ∈ l) (h : x < y) :
    l.countP (· < x) < l.countP (· < y) := by
  induction l with
  | nil => cases hx
  | cons z l ih =>
    have hle : l.countP (· < x) ≤ l.countP (· < y) := by
      apply List.countP_mono_left
      intro w _ hw
      simp only [decide_eq_true_eq] at hw ⊢
      omega
    rw [List.countP_cons, List.countP_cons]
    rcases List.mem_cons.1 hx with rfl | hx
    · simp [h]
      omega
    · have := ih hx
      by_cases hz : z < x
      · have hzy : z < y := by omega
        simp [hz, hzy, this]
      · simp [hz]
        omega

theorem rank_lt_rank_iff {x y : Int} (hx : x ∈ d.orders) : d.rank x < d.rank y ↔ x < y := by
  constructor
  · intro h
    have hle : ¬ y ≤ x := by
      intro hyx
      have hmono : d.rank y ≤ d.rank x := by
        apply List.countP_mono_left
        intro w _ hw
        simp only [decide_eq_true_eq] at hw ⊢
        omega
      omega
    omega
  · exact countP_lt hx

theorem rank_lt_length {x : Int} (hx : x ∈ d.orders) : d.rank x < d.orders.length := by
  refine Nat.lt_of_le_of_ne List.countP_le_length ?_
  intro h
  have := List.countP_eq_length.1 h x hx
  simp at this

/-! ### The diagram that comes back -/

/-- The id of a participant when the participants are numbered by order. -/
def newId (id : Id) : Id := .minted ((d.sortedParticipants.map Participant.id).idxOf id)

def rankMessage (m : Message Id) : Message Id :=
  { m with source := d.newId m.source, target := d.newId m.target, order := d.rank m.order }

def rankNote (n : Note Id) : Note Id :=
  { n with participants := n.participants.map d.newId, order := d.rank n.order }

def rankActivation (a : Activation Id) : Activation Id where
  participant := d.newId a.participant
  start := d.rank a.start
  stop := a.stop.map fun stop => d.rank stop

def rankSpan (s : Span) : Span := ⟨s.label, d.rank s.start, d.rank s.stop⟩

/-- The diagram with everything sorted, its orders replaced by their ranks and its participants numbered.  A short
name that says no more than the name is dropped. -/
def ranked : Diagram where
  participants := d.sortedParticipants.mapIdx Participant.rank
  messages := d.sortedMessages.map d.rankMessage
  notes := (sortBy (fun a b => a.order ≤ b.order) d.notes).map d.rankNote
  activations := (sortBy (fun a b => a.start ≤ b.start) d.activations).map d.rankActivation
  loops := (sortBy (fun a b => a.start ≤ b.start) d.loops).map d.rankSpan
  alts := (sortBy (fun a b => altStart a ≤ altStart b) d.alts).map fun spans => spans.map d.rankSpan
  opts := (sortBy (fun a b => a.start ≤ b.start) d.opts).map d.rankSpan
where
  /-- Where an alternative begins. -/
  altStart (spans : List Span) : Int := (spans.head?.map Span.start).getD 0

end Diagram

/-! ### What can be written -/

/-- A text that stays as it is at the end of a line: no blanks around it, no line break and no comment in it. -/
structure IsLabel (s : Text) : Prop where
  stripped : Text.strip s = s
  one_line : '\n' ∉ s
  no_comment : ¬ ['%', '%'] <:+: s

instance (s : Text) : Decidable (IsLabel s) :=
  decidable_of_iff (Text.strip s = s ∧ '\n' ∉ s ∧ ¬ ['%', '%'] <:+: s)
    ⟨fun h => ⟨h.1, h.2.1, h.2.2⟩, fun h => ⟨h.stripped, h.one_line, h.no_comment⟩⟩

/-- A name that stays as it is behind `as`. -/
structure IsDisplay (name : Text) : Prop where
  nonempty : name ≠ []
  label : IsLabel name
  unquoted : '"' ∉ name

instance (name : Text) : Decidable (IsDisplay name) :=
  decidable_of_iff (name ≠ [] ∧ IsLabel name ∧ '"' ∉ name)
    ⟨fun h => ⟨h.1, h.2.1, h.2.2⟩, fun h => ⟨h.nonempty, h.label, h.unquoted⟩⟩

/-- All references are to participants of the diagram, and a note has some. -/
structure Diagram.Linked (d : Diagram) : Prop where
  message_ends : ∀ m ∈ d.messages,
    m.source ∈ d.participants.map Participant.id ∧ m.target ∈ d.participants.map Participant.id
  note_participants : ∀ n ∈ d.notes, n.participants ≠ [] ∧ n.participants ⊆ d.participants.map Participant.id
  activation_participant : ∀ a ∈ d.activations, a.participant ∈ d.participants.map Participant.id

/-- A diagram whose parts fit together: what it refers to is there, and its orders are those of some text. -/
structure Diagram.Coherent (d : Diagram) : Prop extends d.Linked where
  ids : (d.participants.map Participant.id).Nodup
  /-- Each alternative has a branch. -/
  alts : [] ∉ d.alts
  orders : d.orders.Nodup
  joined : ∀ b ∈ d.frames, b.Joined
  /-- Of two blocks the one that begins inside the other ends there: they are nested or apart. -/
  nested : ∀ a ∈ d.frames, ∀ b ∈ d.frames, a.start < b.start → b.start < a.stop → b.stop < a.stop
  /-- No further branch of a block begins inside a block that is nested in it. -/
  outside : ∀ a ∈ d.frames, ∀ b ∈ d.frames, a.start < b.start → b.stop < a.stop →
    ∀ s ∈ a.more, s.start < b.start ∨ b.stop < s.start
  forward : ∀ a ∈ d.activations, ∀ stop ∈ a.stop, a.start < stop
  /-- Of two activations of a participant the one that begins inside the other ends there: they are nested or apart.
  One without an end goes on forever. -/
  active : ∀ a ∈ d.activations, ∀ b ∈ d.activations, a.participant = b.participant → a.start < b.start →
    ∀ stop ∈ a.stop, b.start < stop → ∃ earlier ∈ b.stop, earlier < stop

/-- A diagram whose text keeps all but the ids, the orders and the short names that say no more than the names. -/
structure Diagram.Writable (d : Diagram) : Prop extends d.Coherent where
  keys : (d.participants.map Participant.key).Nodup
  quotable : ∀ p ∈ d.participants, Text.isQuotable p.key = true
  display : ∀ p ∈ d.participants, ∀ name ∈ p.display?, IsDisplay name
  message_label : ∀ m ∈ d.messages, IsLabel m.label
  note_text : ∀ n ∈ d.notes, IsLabel n.text
  block_label : ∀ b ∈ d.frames, ∀ s ∈ b.branches, IsLabel s.label

namespace Diagram

variable {d : Diagram}

theorem mem_sortedParticipants {p : Participant} : p ∈ d.sortedParticipants ↔ p ∈ d.participants := mem_sortBy

/-- Only alternatives have further branches. -/
theorem kind_of_more {b : Frame} (hb : b ∈ d.frames) (hm : b.more ≠ []) : b.kind = .alt := by
  simp only [frames, List.mem_append, List.mem_map, List.mem_flatMap] at hb
  rcases hb with (⟨s, -, rfl⟩ | ⟨s, -, rfl⟩) | ⟨spans, -, hb⟩
  · exact absurd rfl hm
  · exact absurd rfl hm
  · cases spans with
    | nil => cases hb
    | cons first more =>
      rw [List.mem_singleton.1 hb]

/-- Participants that differ keep different ids. -/
theorem newId_inj {i j : Id} (hi : i ∈ d.participants.map Participant.id) (h : d.newId i = d.newId j) : i = j := by
  have hmem : i ∈ d.sortedParticipants.map Participant.id := by
    obtain ⟨p, hp, rfl⟩ := List.mem_map.1 hi
    exact List.mem_map_of_mem (mem_sortedParticipants.2 hp)
  unfold newId at h
  injection h with h
  exact (List.idxOf_inj hmem).1 h

end Diagram

end DiagramText.Sequence

import DiagramText.Proofs.Sequence.Happenings

/-!
# The lines of any diagram

A diagram may refer to participants that it does not have, give one id to several, and let many things happen at one
order.  What is written of it are the happenings of its `known` part (`events_eq_known`), and they come in the order of
its `script` (`sortedEvents_eq_script`).
-/

namespace DiagramText.Sequence

namespace Happening

/-- What kind of line is written. -/
def kind : Happening → EventKind
  | message _ => .leaf
  | note _ => .leaf
  | opening _ => .opening
  | branch _ _ => .branch
  | closing _ => .closing
  | activate _ => .mark
  | deactivate _ _ => .mark

/-- What tells lines of one kind at one order apart: the wider block opens first and closes last. -/
def span : Happening → Int
  | opening b => b.start - b.stop
  | closing b => -b.start
  | _ => 0

/-- The line of a happening may come before that of another. -/
def Le (a b : Happening) : Prop :=
  a.order < b.order ∨ (a.order = b.order ∧ (a.kind.rank < b.kind.rank ∨ (a.kind.rank = b.kind.rank ∧ a.span ≤ b.span)))

theorem le_event_iff (key : Id → Text) (a b : Happening) : (a.event key).le (b.event key) ↔ a.Le b := by
  have hkind : ∀ h : Happening, (h.event key).kind = h.kind := by
    intro h
    cases h <;> rfl
  have hspan : ∀ h : Happening, (h.event key).span = h.span := by
    intro h
    cases h <;> rfl
  simp only [Event.le, Le, order_event, hkind, hspan, Bool.or_eq_true, Bool.and_eq_true, decide_eq_true_eq]

/-- A line that opens or ends a block. -/
def isEnd : Happening → Bool
  | opening _ => true
  | closing _ => true
  | _ => false

section

variable {h : Happening} {a b : Frame}

/-! A line that opens a block comes before all other lines of its order, and an end line behind them. -/

theorem opening_le_opening_iff :
    (opening a).Le (opening b) ↔ a.start < b.start ∨ (a.start = b.start ∧ b.stop ≤ a.stop) := by
  simp only [Le, order, kind, span, Nat.lt_irrefl, false_or, true_and]
  omega

theorem opening_le_closing_iff : (opening a).Le (closing b) ↔ a.start ≤ b.stop := by
  simp only [Le, order, kind, EventKind.rank]
  omega

theorem closing_le_opening_iff : (closing a).Le (opening b) ↔ a.stop < b.start := by
  simp only [Le, order, kind, EventKind.rank]
  omega

theorem closing_le_closing_iff :
    (closing a).Le (closing b) ↔ a.stop < b.stop ∨ (a.stop = b.stop ∧ b.start ≤ a.start) := by
  simp only [Le, order, kind, span, Nat.lt_irrefl, false_or, true_and]
  omega

variable (hend : h.isEnd = false)
include hend

private theorem rank_of_isEnd : EventKind.opening.rank < h.kind.rank ∧ h.kind.rank < EventKind.closing.rank := by
  cases h with
  | opening | closing => cases hend
  | message | note | branch | activate | deactivate => simp only [kind, EventKind.rank]; omega

theorem opening_le_iff : (opening b).Le h ↔ b.start ≤ h.order := by
  have hrank := rank_of_isEnd hend
  show b.start < h.order ∨ (b.start = h.order ∧ (EventKind.opening.rank < h.kind.rank ∨ _)) ↔ _
  omega

theorem le_opening_iff : h.Le (opening b) ↔ h.order < b.start := by
  have hrank := rank_of_isEnd hend
  show h.order < b.start ∨ (h.order = b.start ∧ (h.kind.rank < EventKind.opening.rank ∨ (h.kind.rank =
    EventKind.opening.rank ∧ _))) ↔ _
  omega

theorem closing_le_iff : (closing b).Le h ↔ b.stop < h.order := by
  have hrank := rank_of_isEnd hend
  show b.stop < h.order ∨ (b.stop = h.order ∧ (EventKind.closing.rank < h.kind.rank ∨ (EventKind.closing.rank =
    h.kind.rank ∧ _))) ↔ _
  omega

theorem le_closing_iff : h.Le (closing b) ↔ h.order ≤ b.stop := by
  have hrank := rank_of_isEnd hend
  show h.order < b.stop ∨ (h.order = b.stop ∧ (h.kind.rank < EventKind.closing.rank ∨ _)) ↔ _
  omega

end

end Happening

namespace Diagram

variable (d : Diagram)

/-- What a text calls the participant with an id.  Of participants that share it the last by order counts. -/
def nameOf (id : Id) : Text := ((d.sortedParticipants.reverse.find? (·.id = id)).map Participant.key).getD []

/-- The ids of the participants. -/
def ids : List Id := d.participants.map Participant.id

/-- A note at those of its participants that the diagram has. -/
def knownNote (n : Note Id) : Note Id := { n with participants := n.participants.filter (· ∈ d.ids) }

/-- The diagram without what refers to nobody. -/
def known : Diagram :=
  { d with
    messages := d.messages.filter fun m => m.source ∈ d.ids ∧ m.target ∈ d.ids
    notes := (d.notes.map d.knownNote).filter fun n => n.participants ≠ []
    activations := d.activations.filter fun a => a.participant ∈ d.ids }

/-- What is written behind the participants, in the order in which it is written. -/
def script : List Happening := sortBy (fun a b => (a.event d.nameOf).le (b.event d.nameOf)) d.known.happenings

/-! ### What is known -/

private theorem find?_cases (id : Id) :
    (∃ p ∈ d.participants, p.id = id ∧ d.sortedParticipants.reverse.find? (·.id = id) = some p) ∨
      (id ∉ d.ids ∧ d.sortedParticipants.reverse.find? (·.id = id) = none) := by
  cases hfind : d.sortedParticipants.reverse.find? (·.id = id) with
  | none =>
    refine Or.inr ⟨?_, rfl⟩
    intro hid
    obtain ⟨p, hp, rfl⟩ := List.mem_map.1 hid
    have hmem : p ∈ d.sortedParticipants.reverse := List.mem_reverse.2 (mem_sortedParticipants.2 hp)
    have hne : p.id ≠ p.id := by simpa using List.find?_eq_none.1 hfind p hmem
    exact hne rfl
  | some p =>
    have hp : p ∈ d.sortedParticipants.reverse := List.mem_of_find?_eq_some hfind
    have hid : p.id = id := by simpa using List.find?_some hfind
    exact Or.inl ⟨p, mem_sortedParticipants.1 (List.mem_reverse.1 hp), hid, rfl⟩

/-- A participant is called by its key or by that of another with its id. -/
theorem exists_nameOf {id : Id} (h : id ∈ d.ids) : ∃ p ∈ d.participants, d.nameOf id = p.key := by
  rcases d.find?_cases id with ⟨p, hp, -, hfind⟩ | ⟨hnot, -⟩
  · refine ⟨p, hp, ?_⟩
    rw [nameOf, hfind]
    rfl
  · exact absurd h hnot

theorem reference?_eq_ite (id : Id) :
    d.reference? id = if id ∈ d.ids then some (formatKey (d.nameOf id)) else none := by
  rcases d.find?_cases id with ⟨p, hp, rfl, hfind⟩ | ⟨hnot, hfind⟩
  · have hmem : p.id ∈ d.ids := List.mem_map_of_mem hp
    rw [reference?, nameOf, hfind, if_pos hmem]
    rfl
  · rw [reference?, hfind, if_neg hnot]
    rfl

private theorem filterMap_ite {α β : Type} {f : α → Option β} {p : α → Prop} [DecidablePred p] {g : α → β} {l : List α}
    (h : ∀ a, f a = if p a then some (g a) else none) : l.filterMap f = (l.filter p).map g := by
  obtain rfl : f = fun a => if p a then some (g a) else none := funext h
  induction l with
  | nil => rfl
  | cons a l ih => by_cases ha : p a <;> simp [ha, ih]

private theorem messages_known :
    d.messages.filterMap d.messageEvent? = d.known.messages.map fun m => (Happening.message m).event d.nameOf := by
  apply filterMap_ite
  intro m
  rw [messageEvent?, reference?_eq_ite, reference?_eq_ite]
  by_cases hs : m.source ∈ d.ids <;> by_cases ht : m.target ∈ d.ids <;> simp [hs, ht, Happening.event]

private theorem notes_known :
    d.notes.filterMap d.noteEvent? = d.known.notes.map fun n => (Happening.note n).event d.nameOf := by
  have hnames : ∀ ids : List Id, ids.filterMap d.reference? =
      (ids.filter (· ∈ d.ids)).map fun id => formatKey (d.nameOf id) := fun ids => filterMap_ite (d.reference?_eq_ite)
  have hnote : d.noteEvent? = fun n =>
      if (d.knownNote n).participants ≠ [] then some ((Happening.note (d.knownNote n)).event d.nameOf) else none := by
    funext n
    have hevent : (Happening.note (d.knownNote n)).event d.nameOf = ⟨n.order, .leaf, 0, "Note ".toList ++
        n.position.words ++ ' ' :: [','].intercalate (n.participants.filterMap d.reference?) ++ colonText n.text⟩ := by
      rw [hnames]
      rfl
    rw [hevent, noteEvent?]
    show _ = if n.participants.filter (· ∈ d.ids) ≠ [] then _ else _
    have hempty : n.participants.filter (· ∈ d.ids) = [] ↔ n.participants.filterMap d.reference? = [] := by
      rw [hnames, List.map_eq_nil_iff]
    simp only [ne_eq, hempty]
    split
    · rename_i hnil
      simp [hnil]
    · rename_i hne
      rw [if_pos hne]
  rw [known, ← filterMap_ite (f := fun n : Note Id =>
    if n.participants ≠ [] then some ((Happening.note n).event d.nameOf) else none) fun _ => rfl, List.filterMap_map,
    hnote]
  rfl

private theorem activations_known : d.activations.flatMap d.activationEvents =
    d.known.activations.flatMap fun a => a.happenings.map (Happening.event d.nameOf) := by
  have hmarks : ∀ a, d.activationEvents a =
      if a.participant ∈ d.ids then a.happenings.map (Happening.event d.nameOf) else [] := by
    intro a
    rw [activationEvents, reference?_eq_ite]
    by_cases ha : a.participant ∈ d.ids
    · simp only [if_pos ha, Activation.happenings, List.map_cons, List.map_map]
      rfl
    · simp only [if_neg ha]
  have hfilter : ∀ as : List (Activation Id), as.flatMap d.activationEvents =
      (as.filter fun a => a.participant ∈ d.ids).flatMap fun a => a.happenings.map (Happening.event d.nameOf) := by
    intro as
    induction as with
    | nil => rfl
    | cons a as ih =>
      rw [List.flatMap_cons, hmarks, ih]
      by_cases ha : a.participant ∈ d.ids <;> simp [ha]
  exact hfilter d.activations

/-- What is written behind the participants are the lines of what is known. -/
theorem events_eq_known : d.events = d.known.happenings.map (Happening.event d.nameOf) := by
  have hframes := frameEvents_eq d d.nameOf
  simp only [List.append_assoc] at hframes
  simp only [events, happenings, List.map_append, List.map_map, List.map_flatMap, List.append_assoc, messages_known,
    notes_known, activations_known]
  show _ = _ ++ (_ ++ (d.frames.flatMap _ ++ _))
  rw [← hframes]
  simp only [List.append_assoc]
  rfl

/-! ### The script -/

/-- The lines behind the participants are those of the script, one by one. -/
theorem sortedEvents_eq_script : d.sortedEvents = d.script.map (Happening.event d.nameOf) := by
  rw [sortedEvents, events_eq_known, script, map_sortBy]

theorem mem_script {h : Happening} : h ∈ d.script ↔ h.Of d.known := by
  rw [script, mem_sortBy, ← mem_timeline, timeline_perm.mem_iff]

theorem pairwise_script : d.script.Pairwise Happening.Le := by
  have h : d.script.Pairwise fun a b => (a.event d.nameOf).le (b.event d.nameOf) :=
    pairwise_sortBy (fun a b c => Event.le_trans (a.event _) (b.event _) (c.event _))
      (fun a b => Event.le_total (a.event _) (b.event _)) _
  exact h.imp fun hab => (Happening.le_event_iff _ _ _).1 hab

section

variable {d} {before after : List Happening} {h : Happening} (hs : d.script = before ++ h :: after)
include hs

theorem of_script : h.Of d.known := d.mem_script.1 (by rw [hs]; exact List.mem_append_right _ List.mem_cons_self)

theorem of_script_before {i : Happening} (hi : i ∈ before) : i.Of d.known :=
  d.mem_script.1 (by rw [hs]; exact List.mem_append_left _ hi)

theorem le_of_mem_before {i : Happening} (hi : i ∈ before) : i.Le h := by
  have hpair := pairwise_script d
  rw [hs, List.pairwise_append] at hpair
  exact hpair.2.2 i hi h List.mem_cons_self

theorem le_of_mem_after {i : Happening} (hi : i ∈ after) : h.Le i := by
  have hpair := pairwise_script d
  rw [hs, List.pairwise_append, List.pairwise_cons] at hpair
  exact hpair.2.1.1 i hi

theorem mem_before_or_after {i : Happening} (hi : i.Of d.known) (hne : i ≠ h) : i ∈ before ∨ i ∈ after := by
  have hmem := d.mem_script.2 hi
  rw [hs, List.mem_append, List.mem_cons] at hmem
  rcases hmem with hb | rfl | ha
  · exact Or.inl hb
  · exact absurd rfl hne
  · exact Or.inr ha

end

end Diagram

end DiagramText.Sequence

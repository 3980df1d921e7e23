import DiagramText.Graph
import DiagramText.Proofs.Flowchart.Emission
import DiagramText.Proofs.Keyed
import DiagramText.Proofs.Sequence.Happenings

/-!
# What joins two elements in a text

Relations, edges and messages tie two elements to each other (`Tie`).  `Diagram.marked` goes through the lines of a
written text and tells which of them is written for a tie (`unlines_marked`).  In every dialect these are the ties whose
ends are both elements of the diagram, and each of them has one line (`written_perm`).
-/

namespace DiagramText

/-- What joins two elements of a diagram, as a graph knows it. -/
structure Tie where
  source : Id
  target : Id
  link : GraphLink
deriving DecidableEq, Repr

/-- Both ends of the tie are among the ids. -/
def Tie.within (t : Tie) (ids : List Id) : Bool := ids.contains t.source && ids.contains t.target

/-! ### Relations -/

namespace Er

def Relation.tie (r : Relation Id) : Tie :=
  ⟨r.source, r.target, ⟨if r.identifying then "identifying".toList else "non-identifying".toList, r.label⟩⟩

namespace Diagram

variable {d : Diagram}

/-- The lines of a diagram: those of relations with their ties. -/
def marked (size : Int) (d : Diagram) : List (Option Tie × Text) :=
  (none, headerWord) ::
    d.relations.filterMap (fun r => (d.resolve? r).map fun r' => (some r.tie, Text.indent size 1 ++ r'.line)) ++
    (d.sorted.flatMap (·.lines size d.related)).map (none, ·)

theorem map_snd_marked (size : Int) (d : Diagram) : (d.marked size).map Prod.snd = d.lines size := by
  rw [marked, lines, List.map_append, List.map_cons, List.map_filterMap, List.map_filterMap, List.map_map]
  simp [Function.comp_def]

private theorem resolve?_isSome_iff {r : Relation Id} :
    (d.resolve? r).isSome = r.tie.within (d.entities.map Entity.id) := by
  have hknown : ∀ id, (d.entity? id).isSome = (d.entities.map Entity.id).contains id := Keyed.isSome_find? _ _
  rw [Tie.within, Relation.tie, ← hknown, ← hknown, resolve?]
  cases d.entity? r.source <;> cases d.entity? r.target <;> rfl

/-- The ties that have a line. -/
theorem written_marked (size : Int) (d : Diagram) : (d.marked size).filterMap Prod.fst =
    (d.relations.map Relation.tie).filter (·.within (d.entities.map Entity.id)) := by
  have hrelations : ∀ rs : List (Relation Id),
      (rs.filterMap fun r => (d.resolve? r).map fun r' => (some r.tie, Text.indent size 1 ++ r'.line)).filterMap
        Prod.fst = (rs.map Relation.tie).filter (·.within (d.entities.map Entity.id)) := by
    intro rs
    induction rs with
    | nil => rfl
    | cons r rs ih =>
      rw [List.map_cons, List.filter_cons, ← resolve?_isSome_iff, ← ih]
      cases hr : d.resolve? r with
      | none => rw [List.filterMap_cons, hr]; rfl
      | some r' => rw [List.filterMap_cons, hr]; rfl
  rw [marked, List.filterMap_append, List.filterMap_cons, hrelations]
  simp [List.filterMap_map]

end Diagram

end Er

/-! ### Edges -/

namespace Flowchart

def Edge.tie (e : Edge Id) : Tie := ⟨e.source, e.target, ⟨e.link.type.name, e.link.label⟩⟩

namespace Diagram

/-- The lines of a diagram: those of edges with their ties. -/
def marked (size : Int) (d : Diagram) : List (Option Tie × Text) :=
  (inBlocks none d.emission).map fun l =>
    (l.2.edge?.map fun e => e.1.tie, Text.indent size (l.2.depth l.1) ++ l.2.text d.arrange.naming)

theorem map_snd_marked (size : Int) (d : Diagram) : (d.marked size).map Prod.snd = d.arrange.lines size := by
  rw [marked, List.map_map, lines_arrange]
  rfl

/-- The ties that have a line, not in the order of their edges. -/
theorem written_marked (size : Int) (d : Diagram) : ((d.marked size).filterMap Prod.fst).Perm
    ((d.edges.map Edge.tie).filter (·.within (d.nodes.map Node.id))) := by
  have hmarked : (d.marked size).filterMap Prod.fst =
      ((located Line.edge? (inBlocks none d.emission)).map fun l => l.2.1).map Edge.tie := by
    rw [marked, located, List.filterMap_map, List.map_map, List.map_filterMap]
    apply List.filterMap_congr
    rintro ⟨b, l⟩ -
    simp only [Function.comp_apply, Option.map_map]
    rfl
  have hknown : ∀ id, (d.node? id).isSome = (d.nodes.map Node.id).contains id := Keyed.isSome_find? _ _
  have hresolves : d.resolves = fun e => e.tie.within (d.nodes.map Node.id) := by
    funext e
    rw [resolves, hknown, hknown]
    rfl
  rw [hmarked, List.filter_map]
  refine (d.edgeLines_perm.map Edge.tie).trans ?_
  rw [hresolves]
  rfl

end Diagram

end Flowchart

/-! ### Messages -/

namespace Sequence

def Message.tie (m : Message Id) : Tie := ⟨m.source, m.target, ⟨m.type.name, some m.label⟩⟩

private theorem Event.le_leaf (i j : Int) (s t : Text) :
    Event.le ⟨i, .leaf, 0, s⟩ ⟨j, .leaf, 0, t⟩ = decide (i ≤ j) := by
  simp [Event.le, Bool.decide_or, Int.le_iff_lt_or_eq]

namespace Diagram

variable {d : Diagram}

/-- The events in the order in which they are written: those of messages with their ties. -/
def markedEvents (d : Diagram) : List (Option Tie × Event) :=
  sortBy (fun a b => a.2.le b.2) <|
    d.messages.filterMap (fun m => (d.messageEvent? m).map (some m.tie, ·)) ++
      ({ d with messages := [] } : Diagram).events.map (none, ·)

/-- The lines of a diagram: those of messages with their ties. -/
def marked (size : Int) (d : Diagram) : List (Option Tie × Text) :=
  (none, Kind.header.text) :: d.sortedParticipants.map (fun p => (none, Text.indent size 1 ++ p.line)) ++
    (d.markedEvents.map Prod.fst).zip
      ((depths 1 (d.markedEvents.map Prod.snd)).map fun e => Text.indent size e.1 ++ e.2.text)

private theorem events_split (d : Diagram) :
    d.events = d.messages.filterMap d.messageEvent? ++ ({ d with messages := [] } : Diagram).events := by
  simp only [events, List.filterMap_nil, List.nil_append, List.append_assoc]
  rfl

private theorem map_snd_markedEvents (d : Diagram) : d.markedEvents.map Prod.snd = d.sortedEvents := by
  rw [markedEvents, @map_sortBy _ _ Event.le Prod.snd, sortedEvents, events_split d,
    List.map_append, List.map_filterMap]
  simp [Function.comp_def]

private theorem length_depths (n : Nat) (es : List Event) : (depths n es).length = es.length := by
  rw [← List.length_map (f := Prod.snd), map_snd_depths]

theorem map_snd_marked (size : Int) (d : Diagram) : (d.marked size).map Prod.snd = d.lines size := by
  rw [marked, List.map_append, List.map_snd_zip (by simp [length_depths]), map_snd_markedEvents, List.map_cons,
    List.map_map, lines]
  rfl

/-- The place of a message among the events. -/
private def messageEvent (d : Diagram) (m : Message Id) : Event :=
  ⟨m.order, .leaf, 0, ((d.messageEvent? m).map Event.text).getD []⟩

private theorem messageEvent?_eq_some {m : Message Id} {e : Event} (h : d.messageEvent? m = some e) :
    d.messageEvent m = e := by
  rw [messageEvent, h]
  rw [messageEvent?] at h
  split at h
  · cases h
    rfl
  · cases h

private theorem filterMap_messageEvent? (d : Diagram) (ms : List (Message Id)) :
    ms.filterMap (fun m => (d.messageEvent? m).map (some m.tie, ·)) =
      (ms.filter fun m => (d.messageEvent? m).isSome).map fun m => (some m.tie, d.messageEvent m) := by
  induction ms with
  | nil => rfl
  | cons m ms ih =>
    rw [List.filterMap_cons, List.filter_cons, ih]
    cases hm : d.messageEvent? m with
    | none => rfl
    | some e => rw [← messageEvent?_eq_some hm]; rfl

private theorem messageEvent?_isSome (m : Message Id) :
    (d.messageEvent? m).isSome = m.tie.within (d.sortedParticipants.map Participant.id) := by
  have hknown : ∀ id, (d.reference? id).isSome = (d.sortedParticipants.map Participant.id).contains id := by
    intro id
    rw [reference?, Option.isSome_map, Keyed.isSome_find?, List.map_reverse, List.contains_reverse]
  rw [Tie.within, Message.tie, ← hknown, ← hknown, messageEvent?]
  cases d.reference? m.source <;> cases d.reference? m.target <;> rfl

/-- The messages among the events. -/
private theorem filter_markedEvents (d : Diagram) : d.markedEvents.filter (·.1.isSome) =
    (d.sortedMessages.filter fun m => (d.messageEvent? m).isSome).map fun m => (some m.tie, d.messageEvent m) := by
  have hother : ∀ es : List Event, (es.map ((none : Option Tie), ·)).filter (·.1.isSome) = [] := by
    simp
  have hall : ∀ ms : List (Message Id), (ms.map fun m => (some m.tie, d.messageEvent m)).filter (·.1.isSome) =
      ms.map fun m => (some m.tie, d.messageEvent m) := by
    intro ms
    rw [List.filter_eq_self]
    intro e he
    obtain ⟨m, -, rfl⟩ := List.mem_map.1 he
    rfl
  -- both lists are sorted, and among events of messages the orders of the messages decide
  rw [markedEvents, filter_sortBy_eq (fun a b c => Event.le_trans a.2 b.2 c.2) (fun a b => Event.le_total a.2 b.2),
    List.filter_append, hother, List.append_nil, filterMap_messageEvent?, hall, sortedMessages,
    filter_sortBy_eq (by simp only [decide_eq_true_eq]; omega) (by simp only [decide_eq_true_eq]; omega), ← map_sortBy]
  congr 2
  funext a b
  exact Event.le_leaf a.order b.order _ _

private theorem filterMap_fst_filter {β : Type} (l : List (Option Tie × β)) :
    (l.filter (·.1.isSome)).filterMap Prod.fst = l.filterMap Prod.fst := by
  rw [List.filterMap_filter]
  apply List.filterMap_congr
  rintro ⟨t, b⟩ -
  cases t <;> rfl

private theorem filterMap_fst_zip {ts : List (Option Tie)} {lines : List Text} (h : ts.length ≤ lines.length) :
    (ts.zip lines).filterMap Prod.fst = ts.filterMap id := by
  conv_rhs => rw [← List.map_fst_zip h, List.filterMap_map]
  rfl

/-- The ties that have a line, by their orders. -/
theorem written_marked (size : Int) (d : Diagram) : (d.marked size).filterMap Prod.fst =
    (d.sortedMessages.map Message.tie).filter (·.within (d.sortedParticipants.map Participant.id)) := by
  have hmarks : (d.marked size).filterMap Prod.fst = d.markedEvents.filterMap Prod.fst := by
    rw [marked, List.filterMap_append, filterMap_fst_zip (by simp [length_depths]), List.filterMap_map]
    simp [List.filterMap_map]
  rw [hmarks, ← filterMap_fst_filter, filter_markedEvents, List.filterMap_map, List.filter_map]
  have hwithin : (fun m : Message Id => (d.messageEvent? m).isSome) =
      (·.within (d.sortedParticipants.map Participant.id)) ∘ Message.tie :=
    funext messageEvent?_isSome
  rw [hwithin]
  exact congrFun (List.filterMap_eq_map (f := Message.tie)) _

end Diagram

end Sequence

/-! ### All dialects -/

namespace Diagram

/-- The ids of entities, nodes or participants, each as often as it comes.  Those of participants come by order. -/
def ids : Diagram → List Id
  | er d => d.entities.map Er.Entity.id
  | flowchart d => d.nodes.map Flowchart.Node.id
  | sequence d => d.sortedParticipants.map Sequence.Participant.id

/-- The ties of relations, edges or messages.  Those of messages come by order. -/
def ties : Diagram → List Tie
  | er d => d.relations.map Er.Relation.tie
  | flowchart d => d.edges.map Flowchart.Edge.tie
  | sequence d => d.sortedMessages.map Sequence.Message.tie

/-- The lines of a diagram: those of relations, edges or messages with their ties. -/
def marked (size : Int) : Diagram → List (Option Tie × Text)
  | er d => d.marked size
  | flowchart d => d.marked size
  | sequence d => d.marked size

/-- The ties that have lines. -/
def written (size : Int) (d : Diagram) : List Tie := (d.marked size).filterMap Prod.fst

theorem unlines_marked (size : Int) (d : Diagram) : Text.unlines ((d.marked size).map Prod.snd) = d.write size := by
  cases d with
  | er d => rw [marked, Er.Diagram.map_snd_marked]; rfl
  | flowchart d => rw [marked, Flowchart.Diagram.map_snd_marked]; rfl
  | sequence d => rw [marked, Sequence.Diagram.map_snd_marked]; rfl

/-- The ties that have lines are those whose ends are both known, each as often as the diagram has it. -/
theorem written_perm (size : Int) (d : Diagram) : (d.written size).Perm (d.ties.filter (·.within d.ids)) := by
  cases d with
  | er d => exact List.Perm.of_eq (d.written_marked size)
  | flowchart d => exact d.written_marked size
  | sequence d => exact List.Perm.of_eq (d.written_marked size)

end Diagram

end DiagramText

import DiagramText.Diagram
import DiagramText.Proofs.Keyed
import DiagramText.Proofs.Sequence.Happenings
import DiagramText.Proofs.Sorting
import DiagramText.Proofs.Text.Lines

/-!
# The order of the lists

The lists of a sequence diagram may be rearranged (`Sequence.Diagram.Rearranged`).  If no two participants have one
order, the sorted participants are the same and so are the references (`reference?_eq`); every list is turned into
events element by element, so the events are rearranged (`events_perm`), and if no two of them have one order, the
sorted events are the same.  The text is made of nothing else (`Sequence.Diagram.Rearranged.write_eq`).  The entities
of an entity-relationship diagram are looked up by their ids and written by their names, so the same holds of them
(`Er.Diagram.write_perm`).  Both together are `write_rearranged`.
-/

namespace DiagramText

namespace Sequence.Diagram

/-- The second diagram is the first one with its lists in another order.  The branches of an alternative stay. -/
structure Rearranged (d e : Diagram) : Prop where
  participants : d.participants.Perm e.participants
  messages : d.messages.Perm e.messages
  notes : d.notes.Perm e.notes
  activations : d.activations.Perm e.activations
  loops : d.loops.Perm e.loops
  alts : d.alts.Perm e.alts
  opts : d.opts.Perm e.opts

namespace Rearranged

variable {d e : Diagram}

theorem sortedParticipants_eq (h : d.Rearranged e) (horders : (d.participants.map Participant.order).Nodup) :
    d.sortedParticipants = e.sortedParticipants := by
  refine sortBy_perm_eq_of_nodup ?_ ?_ ?_ horders h.participants
  · intro a b c hab hbc
    exact decide_eq_true (Int.le_trans (of_decide_eq_true hab) (of_decide_eq_true hbc))
  · intro a b
    exact (Int.le_total a.order b.order).imp decide_eq_true decide_eq_true
  · intro a b hab hba
    exact Int.le_antisymm (of_decide_eq_true hab) (of_decide_eq_true hba)

/-- Of participants with one id, the last by order is the same one in both diagrams. -/
theorem reference?_eq (h : d.Rearranged e) (horders : (d.participants.map Participant.order).Nodup) :
    d.reference? = e.reference? := by
  funext id
  rw [reference?, reference?, h.sortedParticipants_eq horders]

/-- What an element becomes is told by the references alone. -/
theorem events_perm (h : d.Rearranged e) (horders : (d.participants.map Participant.order).Nodup) :
    d.events.Perm e.events := by
  have hreference := h.reference?_eq horders
  have hmessage : d.messageEvent? = e.messageEvent? := by
    funext m
    rw [messageEvent?, messageEvent?, hreference]
  have hnote : d.noteEvent? = e.noteEvent? := by
    funext n
    rw [noteEvent?, noteEvent?, hreference]
  have hactivation : d.activationEvents = e.activationEvents := by
    funext a
    rw [activationEvents, activationEvents, hreference]
  rw [events, events, hmessage, hnote, hactivation]
  refine List.Perm.append ?_ (h.activations.flatMap_right _)
  refine List.Perm.append ?_ (h.alts.flatMap_right _)
  refine List.Perm.append ?_ (h.opts.flatMap_right _)
  refine List.Perm.append ?_ (h.loops.flatMap_right _)
  exact (h.messages.filterMap _).append (h.notes.filterMap _)

/-- Events at one place have one order. -/
private theorem order_eq_of_le {a b : Event} (hab : a.le b = true) (hba : b.le a = true) : a.order = b.order := by
  simp only [Event.le, Bool.or_eq_true, Bool.and_eq_true, decide_eq_true_eq] at hab hba
  omega

/-- The orders alone arrange a sequence diagram: if none comes twice, the text does not show how the lists are
arranged. -/
theorem write_eq (h : d.Rearranged e) (hparticipants : (d.participants.map Participant.order).Nodup)
    (hevents : (d.events.map Event.order).Nodup) (size : Int) : d.write size = e.write size := by
  have hsorted : d.sortedEvents = e.sortedEvents :=
    sortBy_perm_eq_of_nodup Event.le_trans Event.le_total (fun _ _ => order_eq_of_le) hevents
      (h.events_perm hparticipants)
  rw [write, write, lines, lines, h.sortedParticipants_eq hparticipants, hsorted]

end Rearranged

end Sequence.Diagram

namespace Er.Diagram

variable {d e : Diagram}

/-- The names alone arrange the entities of an entity-relationship diagram: if no id and no name comes twice, the text
does not show how they are arranged. -/
theorem write_perm (h : d.entities.Perm e.entities) (hrelations : d.relations = e.relations)
    (hids : (d.entities.map Entity.id).Nodup) (hnames : (d.entities.map Entity.name).Nodup) (size : Int) :
    d.write size = e.write size := by
  have hentity : d.entity? = e.entity? := by
    funext id
    exact Keyed.find?_perm hids h id
  have hresolve : d.resolve? = e.resolve? := by
    funext r
    rw [resolve?, resolve?, hentity]
  have hrelated : d.related = e.related := by
    rw [related, related, resolved, resolved, hresolve, hrelations]
  have hsorted : d.sorted = e.sorted := by
    refine sortBy_perm_eq_of_nodup ?_ ?_ ?_ hnames h
    · exact fun a b c => Text.le_trans a.name b.name c.name
    · exact fun a b => Text.le_total a.name b.name
    · exact fun a b => Text.le_antisymm a.name b.name
  rw [write, write, lines, lines, hresolve, hrelations, hrelated, hsorted]

end Er.Diagram

/-- How the lists of a sequence diagram and the entities of an entity-relationship diagram are arranged does not show in
the text. -/
theorem write_rearranged :
    (∀ d e : Sequence.Diagram, d.Rearranged e → (d.participants.map Sequence.Participant.order).Nodup →
      (d.events.map Sequence.Event.order).Nodup → ∀ size, d.write size = e.write size) ∧
    ∀ d e : Er.Diagram, d.entities.Perm e.entities → d.relations = e.relations → (d.entities.map Er.Entity.id).Nodup →
      (d.entities.map Er.Entity.name).Nodup → ∀ size, d.write size = e.write size :=
  ⟨fun _ _ h hparticipants hevents => h.write_eq hparticipants hevents,
    fun _ _ h hrelations hids hnames => Er.Diagram.write_perm h hrelations hids hnames⟩

/-- Two participants of one id, references to nobody, and two blocks around a branch. -/
def quarrel : Sequence.Diagram where
  participants := [
    { id := .given "a".toList, name := "Ann".toList, kind := .actor, order := 2 },
    { id := .given "a".toList, name := "Abe".toList, order := 0 },
    { id := .given "b".toList, name := "Bob".toList, order := 1 }]
  messages := [
    { source := .given "a".toList, target := .given "b".toList, label := "no".toList, order := 4 },
    { source := .given "b".toList, target := .given "nobody".toList, order := 2 },
    { source := .given "b".toList, target := .given "a".toList, label := "yes".toList, order := 2 }]
  notes := [
    { text := "shouting".toList, participants := [.given "b".toList, .given "nobody".toList], order := 5 },
    { text := "silence".toList, participants := [.given "nobody".toList], order := 5 }]
  activations := [
    { participant := .given "b".toList, start := 3, stop := some 7 },
    { participant := .given "a".toList, start := 1 }]
  loops := [{ label := "again".toList, start := 9, stop := 12 }, { label := "always".toList, start := 0, stop := 13 }]
  alts := [[{ label := "loud".toList, start := 6, stop := 8 }, { label := "low".toList, start := 8, stop := 10 }], []]
  opts := [{ label := "late".toList, start := 11, stop := 14 }]

/-- Three entities that are not by name, and a relation with an unknown end. -/
def larder : Er.Diagram where
  entities := [
    { id := .given "1".toList, name := "Tea".toList },
    { id := .given "2".toList, name := "Jam".toList, attributes := [{ name := "of".toList, type := "fruit".toList }] },
    { id := .given "3".toList, name := "Salt".toList }]
  relations := [
    { source := .given "2".toList, target := .given "1".toList },
    { source := .given "3".toList, target := .given "4".toList }]

theorem write_rearranged_quarrel : ∀ size,
    (quarrel.write size = Sequence.Diagram.write size { quarrel with
      participants := quarrel.participants.reverse
      messages := quarrel.messages.reverse
      notes := quarrel.notes.reverse
      activations := quarrel.activations.reverse
      loops := quarrel.loops.reverse
      alts := quarrel.alts.reverse }) ∧
    larder.write size = Er.Diagram.write size { larder with entities := larder.entities.reverse } := by
  intro size
  constructor
  · refine write_rearranged.1 _ _ ?_ (by decide) (by decide +kernel) size
    exact {
      participants := (List.reverse_perm _).symm
      messages := (List.reverse_perm _).symm
      notes := (List.reverse_perm _).symm
      activations := (List.reverse_perm _).symm
      loops := (List.reverse_perm _).symm
      alts := (List.reverse_perm _).symm
      opts := List.Perm.refl _ }
  · exact write_rearranged.2 larder { larder with entities := larder.entities.reverse } (List.reverse_perm _).symm rfl
      (by decide) (by decide) size

end DiagramText

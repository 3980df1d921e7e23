import DiagramText.Id
import DiagramText.Sorting

/-!
# Sequence diagrams

Messages, notes, the ends of blocks and the marks of activations carry an order, a number that says where they come on
the way down; nothing else does.  Messages and notes refer to participants by any kind of reference.
-/

namespace DiagramText.Sequence

inductive ParticipantKind where
  | participant
  | actor
deriving DecidableEq, Repr

/-- The kind as it is written. -/
def ParticipantKind.word : ParticipantKind → Text
  | participant => "participant".toList
  | actor => "actor".toList

/-- The type of a message: its line and its head. -/
inductive MessageType where
  | solid
  | dotted
  | solidArrow
  | dottedArrow
  | solidCross
  | dottedCross
  | solidOpen
  | dottedOpen
deriving DecidableEq, Repr

namespace MessageType

/-- The arrow as it is written. -/
def symbol : MessageType → Text
  | solid => "->".toList
  | dotted => "-->".toList
  | solidArrow => "->>".toList
  | dottedArrow => "-->>".toList
  | solidCross => "-x".toList
  | dottedCross => "--x".toList
  | solidOpen => "-)".toList
  | dottedOpen => "--)".toList

/-- The types in an order in which an arrow comes before those that it begins with. -/
def all : List MessageType :=
  [dottedArrow, dottedOpen, dottedCross, solidArrow, solidOpen, solidCross, dotted, solid]

/-- The name of the type. -/
def name : MessageType → Text
  | solid => "solid".toList
  | dotted => "dotted".toList
  | solidArrow => "solid-arrow".toList
  | dottedArrow => "dotted-arrow".toList
  | solidCross => "solid-cross".toList
  | dottedCross => "dotted-cross".toList
  | solidOpen => "solid-open".toList
  | dottedOpen => "dotted-open".toList

end MessageType

/-- Where a note stands. -/
inductive NotePosition where
  | leftOf
  | rightOf
  | across
deriving DecidableEq, Repr

/-- The position as it is written. -/
def NotePosition.words : NotePosition → Text
  | leftOf => "left of".toList
  | rightOf => "right of".toList
  | across => "over".toList

structure Participant where
  id : Id
  name : Text
  kind : ParticipantKind := .participant
  /-- What a text calls the participant in place of the name. -/
  shortName : Option Text := none
  order : Int := 0
deriving DecidableEq, Repr

/-- What a text calls the participant: the short name, or the name if there is none or it is empty. -/
def Participant.key (p : Participant) : Text :=
  match p.shortName with
  | some (c :: r) => c :: r
  | _ => p.name

/-- A message between two participants, which are referred to by `ι`. -/
structure Message (ι : Type) where
  source : ι
  target : ι
  type : MessageType := .solidArrow
  label : Text := []
  order : Int := 0
deriving DecidableEq, Repr

/-- A note at participants, which are referred to by `ι`. -/
structure Note (ι : Type) where
  text : Text
  position : NotePosition := .across
  participants : List ι := []
  order : Int := 0
deriving DecidableEq, Repr

/-- A time in which a participant is active; one without an end stays open. -/
structure Activation (ι : Type) where
  participant : ι
  start : Int
  stop : Option Int := none
deriving DecidableEq, Repr

/-- A labelled stretch of the diagram. -/
structure Span where
  label : Text
  start : Int
  stop : Int
deriving DecidableEq, Repr

structure Diagram where
  participants : List Participant := []
  messages : List (Message Id) := []
  notes : List (Note Id) := []
  activations : List (Activation Id) := []
  loops : List Span := []
  /-- Each alternative is the list of its branches. -/
  alts : List (List Span) := []
  opts : List Span := []
deriving DecidableEq, Repr

/-- The messages by order; those of one order keep their places. -/
def Diagram.sortedMessages (d : Diagram) : List (Message Id) := sortBy (fun a b => a.order ≤ b.order) d.messages

/-- The first participant with this id. -/
def Diagram.participant? (d : Diagram) (id : Id) : Option Participant := d.participants.find? (·.id = id)

/-- The participants by order; those of one order keep their places. -/
def Diagram.sortedParticipants (d : Diagram) : List Participant :=
  sortBy (fun a b => a.order ≤ b.order) d.participants

/-- The kinds of blocks. -/
inductive BlockKind where
  | loop
  | opt
  | alt
deriving DecidableEq, Repr

/-- The word that opens a block. -/
def BlockKind.word : BlockKind → Text
  | loop => "loop".toList
  | opt => "opt".toList
  | alt => "alt".toList

end DiagramText.Sequence

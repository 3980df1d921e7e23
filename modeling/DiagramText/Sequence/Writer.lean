import DiagramText.Sequence.Token

/-!
# Writing sequence text

The participants come first, by order.  All else becomes events, each with the order at which it happens; the events
are sorted and written one line each, indented by the blocks around them.  Of events with one order, blocks open first
(the wider one before the narrower), then come branches, marks of activations, messages and notes, and blocks close
last (the inner one before the outer).
-/

namespace DiagramText.Sequence

/-! ### References -/

/-- A participant as it is referred to in text: in quotes unless it is read as one word. -/
def formatKey (key : Text) : Text :=
  if Text.isWord key && !reserved.contains key then key else Text.quote key

/-- How a text refers to an id.  Of participants that share an id the last by order counts. -/
def Diagram.reference? (d : Diagram) (id : Id) : Option Text :=
  (d.sortedParticipants.reverse.find? (·.id = id)).map fun p => formatKey p.key

/-- The line of a participant, without its indent. -/
def Participant.line (p : Participant) : Text :=
  p.kind.word ++ ' ' :: formatKey p.key ++
    match p.shortName with
    | some (c :: r) => if c :: r ≠ p.name then " as ".toList ++ p.name else []
    | _ => []

/-- Free text behind a colon; an empty one is left out. -/
def colonText (text : Text) : Text := if text = [] then [] else ": ".toList ++ text

/-! ### Events -/

/-- What happens at an event, in the order in which events of one place in the diagram are written. -/
inductive EventKind where
  | opening
  | branch
  | mark
  | leaf
  | closing
deriving DecidableEq, Repr

/-- The place of the kind among events of one order. -/
def EventKind.rank : EventKind → Nat
  | opening => 0
  | branch => 1
  | mark => 2
  | leaf => 3
  | closing => 4

/-- A line of the diagram and where it belongs. -/
structure Event where
  order : Int
  kind : EventKind
  /-- Sorts the ends of blocks that fall together. -/
  span : Int := 0
  text : Text
deriving DecidableEq, Repr

/-- An event comes before another, or at the same place. -/
def Event.le (a b : Event) : Bool :=
  a.order < b.order || (a.order = b.order && (a.kind.rank < b.kind.rank ||
    (a.kind.rank = b.kind.rank && a.span ≤ b.span)))

/-- A keyword with free text behind it. -/
def keywordText (keyword label : Text) : Text := Text.stripEnd (keyword ++ ' ' :: label)

/-- The ends of a block. -/
def blockEvents (kind : BlockKind) (label : Text) (start stop : Int) : List Event :=
  [⟨start, .opening, start - stop, keywordText kind.word label⟩, ⟨stop, .closing, -start, Kind.closing.text⟩]

/-- The ends of an alternative and the beginnings of its further branches. -/
def altEvents : List Span → List Event
  | [] => []
  | first :: more =>
    blockEvents .alt first.label first.start ((first :: more).getLast?.getD first).stop ++
      more.map fun b => ⟨b.start, .branch, 0, keywordText (Kind.branch []).text b.label⟩

namespace Diagram

/-- A message both of whose ends are known. -/
def messageEvent? (d : Diagram) (m : Message Id) : Option Event :=
  match d.reference? m.source, d.reference? m.target with
  | some source, some target => some ⟨m.order, .leaf, 0, source ++ m.type.symbol ++ target ++ colonText m.label⟩
  | _, _ => none

/-- A note at the participants that are known, if any are. -/
def noteEvent? (d : Diagram) (n : Note Id) : Option Event :=
  match n.participants.filterMap d.reference? with
  | [] => none
  | names => some ⟨n.order, .leaf, 0,
      "Note ".toList ++ n.position.words ++ ' ' :: [','].intercalate names ++ colonText n.text⟩

/-- The marks of an activation whose participant is known. -/
def activationEvents (d : Diagram) (a : Activation Id) : List Event :=
  match d.reference? a.participant with
  | none => []
  | some name =>
    ⟨a.start, .mark, 0, Kind.activate.text ++ ' ' :: name⟩ ::
      a.stop.toList.map fun stop => ⟨stop, .mark, 0, Kind.deactivate.text ++ ' ' :: name⟩

/-- All events, kind by kind. -/
def events (d : Diagram) : List Event :=
  d.messages.filterMap d.messageEvent? ++ d.notes.filterMap d.noteEvent? ++
    d.loops.flatMap (fun b => blockEvents .loop b.label b.start b.stop) ++
    d.opts.flatMap (fun b => blockEvents .opt b.label b.start b.stop) ++
    d.alts.flatMap altEvents ++ d.activations.flatMap d.activationEvents

/-- The events in the order in which they are written. -/
def sortedEvents (d : Diagram) : List Event := sortBy Event.le d.events

end Diagram

/-! ### Lines -/

/-- The events with their depths, from depth `n` on.  An event that closes a block or begins a branch stands where the
block was opened, and no event stands further out than depth 1. -/
def depths (n : Nat) : List Event → List (Nat × Event)
  | [] => []
  | e :: es =>
    match e.kind with
    | .opening => (n, e) :: depths (n + 1) es
    | .closing => (max 1 (n - 1), e) :: depths (max 1 (n - 1)) es
    | .branch => (max 1 (n - 1), e) :: depths n es
    | _ => (n, e) :: depths n es

/-- The lines of a diagram, with `size` blanks for each level of indentation. -/
def Diagram.lines (size : Int) (d : Diagram) : List Text :=
  Kind.header.text :: d.sortedParticipants.map (fun p => Text.indent size 1 ++ p.line) ++
    (depths 1 d.sortedEvents).map fun e => Text.indent size e.1 ++ e.2.text

/-- The text of a diagram. -/
def Diagram.write (size : Int) (d : Diagram) : Text := Text.unlines (d.lines size)

end DiagramText.Sequence

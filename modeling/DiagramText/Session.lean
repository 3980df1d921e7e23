import DiagramText.Refusal

/-!
# Sessions

A session keeps a text and a diagram of one dialect together while either is edited.  A text that cannot be read leaves
the diagram as it is.  A diagram that is handed over replaces the old one before the text is written from it, so that
one which cannot be written remains, beside the old text.  When a new text is read, elements that are displayed under a
known name keep their positions.
-/

namespace DiagramText

/-! ### Positions -/

/-- The position of the first entity or node that is displayed as `name`. -/
def Diagram.positionOf? (name : Text) : Diagram → Option Position
  | er d => (d.named? name).map Er.Entity.position
  | flowchart d => (d.nodes.find? (·.label = name)).map Flowchart.Node.position
  | sequence _ => none

/-- Moves every entity and node to the position that `place` has for its name, if it has one. -/
def Diagram.relocate (place : Text → Option Position) : Diagram → Diagram
  | er d => er { d with entities := d.entities.map fun e => { e with position := (place e.name).getD e.position } }
  | flowchart d =>
    flowchart { d with nodes := d.nodes.map fun n => { n with position := (place n.label).getD n.position } }
  | sequence d => sequence d

/-- The current diagram with the positions that its elements had in the previous one. -/
def Diagram.restore (previous : Option Diagram) (current : Diagram) : Diagram :=
  current.relocate fun name => previous.bind (·.positionOf? name)

/-- Moves the entity or node number `i`. -/
def Diagram.move (i : Nat) (p : Position) : Diagram → Diagram
  | er d => er { d with entities := d.entities.modify i fun e => { e with position := p } }
  | flowchart d => flowchart { d with nodes := d.nodes.modify i fun n => { n with position := p } }
  | sequence d => sequence d

/-- Gives the entity, node or participant number `i` another name. -/
def Diagram.rename (i : Nat) (name : Text) : Diagram → Diagram
  | er d => er { d with entities := d.entities.modify i fun e => { e with name } }
  | flowchart d => flowchart { d with nodes := d.nodes.modify i fun n => { n with label := name } }
  | sequence d => sequence { d with participants := d.participants.modify i fun p => { p with name } }

/-! ### Sessions -/

/-- A text, the diagram that was read last, and the errors of the last reading. -/
structure Session where
  dialect : Dialect
  text : Text
  diagram : Diagram
  errors : List ParseError := []
  /-- The indentation of written text. -/
  size : Int := 4
  /-- If the diagram cannot be written, the name of its type and the reason. -/
  flaw : Option (Text × Refusal) := none
  stack : Stack := default
deriving DecidableEq, Repr

/-- A step of a session. -/
inductive Step where
  /-- The text is edited. -/
  | text (s : Text)
  /-- A diagram is handed over. -/
  | model (v : Value)
  /-- The session's own diagram is handed over. -/
  | remodel
  | move (i : Nat) (p : Position)
  | rename (i : Nat) (name : Text)
deriving DecidableEq, Repr

/-- What a step answers. -/
inductive Answer where
  /-- Whether the text could be read. -/
  | accepted (ok : Bool)
  /-- The text of the diagram. -/
  | text (s : Text)
  | nothing
deriving DecidableEq, Repr

namespace Session

/-- A new session.  Without a diagram it starts with the empty one, and without a text with that of the diagram. -/
def start (stack : Stack) (dialect : Dialect) (text : Text) (diagram : Option Diagram) (size : Int) : Session :=
  let diagram := diagram.getD (.empty dialect)
  { dialect, text := if text = [] then diagram.write size else text, diagram, size, stack }

/-- The diagram of the session as a value. -/
def value (s : Session) : Value :=
  match s.flaw with
  | none => .diagram s.diagram
  | some (name, reason) => .flawed s.diagram name (.writing reason)

/-- Takes a text: if it can be read, its diagram replaces the old one. -/
def takeText (s : Session) (text : Text) : Session × Answer :=
  match (s.dialect.read s.stack text).outcome with
  | .ok diagram => ({ s with text, diagram := diagram.restore s.diagram, errors := [], flaw := none }, .accepted true)
  | .error errors => ({ s with text, errors }, .accepted false)

/-- Takes a diagram in place of the old one and writes the text from it, unless a flaw prevents one or the other. -/
def adopt (s : Session) (diagram : Diagram) : Option (Text × Flaw) → Session × Except Refusal Answer
  | none =>
    let text := diagram.write s.size
    ({ s with text, diagram, errors := [], flaw := none }, .ok (.text text))
  | some (_, .copying reason) => (s, .error reason)
  | some (name, .writing reason) => ({ s with diagram, flaw := some (name, reason) }, .error reason)

/-- Takes a value, if it is a diagram of the dialect or passes for one. -/
def takeModel (s : Session) (v : Value) : Session × Except Refusal Answer :=
  let foreign := (s, .error (.wrongDiagram s.dialect v.typeName))
  match v with
  | .diagram d => if d.dialect = s.dialect then s.adopt d none else foreign
  | .flawed d name flaw => if d.dialect = s.dialect then s.adopt d (some (name, flaw)) else foreign
  | .other _ => foreign

/-- Takes a step: the session behind it, and its answer, unless it is refused. -/
def apply (s : Session) : Step → Session × Except Refusal Answer
  | .text text => let next := s.takeText text; (next.1, .ok next.2)
  | .model v => s.takeModel v
  | .remodel => s.takeModel s.value
  | .move i p => ({ s with diagram := s.diagram.move i p }, .ok .nothing)
  | .rename i name => ({ s with diagram := s.diagram.rename i name }, .ok .nothing)

/-- The session behind a step, be it refused or not. -/
def after (s : Session) (step : Step) : Session := (s.apply step).1

end Session

end DiagramText

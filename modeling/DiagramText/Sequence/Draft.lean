import DiagramText.Keyed
import DiagramText.Sequence.Statement

/-!
# Drafts of sequence diagrams

Statements are added to a draft, in which participants go by the name that the text uses.  Each message, note, end of a
block or branch and mark of an activation takes the next number of one count as its order.
-/

namespace DiagramText.Sequence

/-- A block in the making: its branches, each with its label and order, and its end once it is closed. -/
structure Block where
  kind : BlockKind
  branches : List (Text × Int)
  stop : Option Int := none
deriving DecidableEq, Repr

/-- A diagram in the making: participants by the name that the text uses, and the places of the open blocks, the
innermost first.  `next` is the next order. -/
structure Draft where
  participants : Keyed Text Participant := []
  messages : List (Message Id) := []
  notes : List (Note Id) := []
  activations : List (Activation Id) := []
  blocks : List Block := []
  inside : List Nat := []
  next : Nat := 0
deriving DecidableEq, Repr

/-- Ends the last activation of a participant that is open, if there is one. -/
def closeLast (participant : Id) (stop : Int) : List (Activation Id) → Option (List (Activation Id))
  | [] => none
  | a :: r =>
    match closeLast participant stop r with
    | some r => some (a :: r)
    | none => if a.participant = participant ∧ a.stop = none then some ({ a with stop := some stop } :: r) else none

namespace Draft

/-- The id of a participant. -/
def id (d : Draft) (key : Text) : Id := .minted (d.participants.keys.idxOf key)

/-- Changes a participant, who comes into being if it is new. -/
def update (d : Draft) (key : Text) (f : Participant → Participant) : Draft :=
  let n := d.participants.length
  { d with participants :=
      d.participants.upsert key fun old => f (old.getD { id := .minted n, name := key, order := n }) }

/-- Mentions a participant. -/
def mention (d : Draft) (key : Text) : Draft := d.update key fun p => p

/-- Ends the innermost open block. -/
def close (d : Draft) : Draft :=
  match d.inside with
  | [] => d
  | i :: inside =>
    { d with
      blocks := d.blocks.modify i fun b => { b with stop := some (d.next : Int) }
      inside := inside
      next := d.next + 1 }

/-- Adds what a statement says. -/
def add (d : Draft) : Statement → Draft
  | .participant kind key display =>
    d.update key fun p => { p with kind, name := display.getD key, shortName := display.map fun _ => key }
  | .message source target type label =>
    let d := (d.mention source).mention target
    { d with messages := d.messages ++ [⟨d.id source, d.id target, type, label, d.next⟩], next := d.next + 1 }
  | .note position keys text =>
    let d := keys.foldl mention d
    { d with notes := d.notes ++ [⟨text, position, keys.map d.id, d.next⟩], next := d.next + 1 }
  | .opening kind label _ =>
    { d with
      blocks := d.blocks ++ [{ kind, branches := [(label, d.next)] }]
      inside := d.blocks.length :: d.inside
      next := d.next + 1 }
  | .branch label =>
    match d.inside with
    | [] => d
    | i :: _ =>
      { d with
        blocks := d.blocks.modify i fun b => { b with branches := b.branches ++ [(label, (d.next : Int))] }
        next := d.next + 1 }
  | .closing => d.close
  | .activate key =>
    let d := d.mention key
    { d with activations := d.activations ++ [⟨d.id key, d.next, none⟩], next := d.next + 1 }
  | .deactivate key =>
    let d := d.mention key
    match closeLast (d.id key) d.next d.activations with
    | some activations => { d with activations, next := d.next + 1 }
    | none => d
  | .faulty _ => d
  | .skippedLine _ _ => d
  | .noArrow _ _ => d

/-- Ends the open blocks, the innermost first. -/
def closeAll (d : Draft) : Draft := d.inside.foldl (fun d _ => d.close) d

/-- What a list of statements says. -/
def ofStatements (sts : List Statement) : Draft := (sts.foldl add {}).closeAll

end Draft

/-- The branches as spans: each ends where the next one begins, and the last one at `stop`. -/
def chain (stop : Int) : List (Text × Int) → List Span
  | [] => []
  | (label, start) :: r => ⟨label, start, (r.head?.map Prod.snd).getD stop⟩ :: chain stop r

/-- The spans of a closed block. -/
def Block.spans (b : Block) : List Span := (b.stop.map fun stop => chain stop b.branches).getD []

/-- The diagram of a draft in which all blocks are closed. -/
def Draft.toDiagram (d : Draft) : Diagram where
  participants := d.participants.map Prod.snd
  messages := d.messages
  notes := d.notes
  activations := d.activations
  loops := (d.blocks.filter (·.kind = .loop)).flatMap Block.spans
  alts := (d.blocks.filter (·.kind = .alt)).map Block.spans
  opts := (d.blocks.filter (·.kind = .opt)).flatMap Block.spans

end DiagramText.Sequence

import DiagramText.Text.Literal
import DiagramText.Token

/-!
# Reports

Reading a text ends with a diagram, or with the faults that were found; on the way it notes what it leaves out.  A
fault is a cause with a place; the wording is in `Fault.message` and `Notice.message` only.
-/

namespace DiagramText

/-- Why a construct cannot be read. -/
inductive Fault where
  /-- An attribute has a type and no name. -/
  | attributeName (type : Text)
  /-- A relation leads nowhere. -/
  | relationTarget
  /-- An entity block is not closed. -/
  | openEntityBlock
  /-- A link leads nowhere. -/
  | linkTarget
  /-- A declaration (`participant` or `actor`) names nobody. -/
  | participantName (keyword : Text)
  /-- A message arrow leads nowhere. -/
  | messageTarget
  /-- A note belongs to nobody. -/
  | noteParticipant
  /-- An activation mark (`activate` or `deactivate`) names nobody. -/
  | activationParticipant (keyword : Text)
  /-- The stack of calls ends; what is reported of it may be nothing. -/
  | overflow (report : Text)
deriving DecidableEq, Repr

/-- The wording of a fault. -/
def Fault.message : Fault → Text
  | .attributeName type => "Expected attribute name after type '".toList ++ type ++ "'".toList
  | .relationTarget => "Expected target entity name after relation".toList
  | .openEntityBlock => "Expected '\x7d' at end of entity definition".toList
  | .linkTarget => "Expected node after link".toList
  | .participantName keyword => "Expected identifier after ".toList ++ keyword
  | .messageTarget => "Expected target participant after arrow".toList
  | .noteParticipant => "Expected participant after note position".toList
  | .activationParticipant keyword => "Expected participant after ".toList ++ keyword
  | .overflow report => if report = [] then "Unknown parse error".toList else report

/-- A fault and where it was found. -/
structure ParseError where
  place : Place
  fault : Fault
deriving DecidableEq, Repr

/-- The error as one line. -/
def ParseError.render (e : ParseError) : Text := e.place.render ++ ": ".toList ++ e.fault.message

/-- What reading notes about its decisions. -/
inductive Notice where
  /-- The text has `count` tokens, its end included. -/
  | tokenCount (count : Nat)
  /-- Reading failed with `count` errors. -/
  | failed (count : Nat)
  /-- An entity is mentioned for the first time. -/
  | created (entity : Text)
  /-- A token begins no statement. -/
  | skippedToken (kind : Text) (place : Place)
  /-- A token begins no statement; its text is noted too. -/
  | skippedText (kind text : Text) (place : Place)
  /-- A line whose first token begins no statement. -/
  | skippedLine (kind : Text) (place : Place)
  /-- A line that begins with a name which no arrow follows. -/
  | noArrow (name : Text) (place : Place)
  /-- A deactivation of a participant that is not active. -/
  | notActive (participant : Text)
  /-- A subgraph or block that the end of the text closes. -/
  | openAtEnd (opener : Text) (place : Place)
  /-- Reading was broken off; `trace` are the calls that stood inside each other. -/
  | unexpected (trace : Text)
deriving DecidableEq, Repr

/-- The wording of a notice for the dialect of the given name. -/
def Notice.message (dialect : Text) : Notice → Text
  | .tokenCount n => dialect ++ ": ".toList ++ Text.ofNat n ++ " tokens".toList
  | .failed n => "parse failed with ".toList ++ Text.ofNat n ++ " error(s)".toList
  | .created name => "created entity ".toList ++ Text.literal name
  | .skippedToken kind p => "skipping ".toList ++ kind ++ " at ".toList ++ p.render
  | .skippedText kind text p => "skipping ".toList ++ kind ++ ' ' :: Text.literal text ++ " at ".toList ++ p.render
  | .skippedLine kind p => "skipping line at ".toList ++ p.render ++ " (".toList ++ kind ++ ")".toList
  | .noArrow name p => "no arrow after ".toList ++ Text.literal name ++ " at ".toList ++ p.render ++
      "; skipping line".toList
  | .notActive name => "deactivate ".toList ++ Text.literal name ++ " without a matching activate".toList
  | .openAtEnd opener p => opener ++ " opened at ".toList ++ p.render ++ " closed by end of input".toList
  | .unexpected trace => "unexpected failure while parsing\n".toList ++ trace

/-- The part of the program that a notice is logged for. -/
def Notice.source (dialect : Text) : Notice → Text
  | .failed _ | .unexpected _ => "mermaid_sync.parsers.base".toList
  | _ => "mermaid_sync.parsers.".toList ++ dialect

/-- Whether a notice is more than a note: it is shown even where nothing is logged. -/
def Notice.isAlarm : Notice → Bool
  | .unexpected _ => true
  | _ => false

/-- The notice as a line of the log. -/
def Notice.render (dialect : Text) (n : Notice) : Text :=
  (if n.isAlarm then "ERROR ".toList else "DEBUG ".toList) ++ n.source dialect ++ ": ".toList ++ n.message dialect

/-- The end of reading a text: the diagram or the faults, and what was noted. -/
structure Reading (δ : Type) where
  outcome : Except (List ParseError) δ
  notices : List Notice

/-- A reading succeeds if there is no fault. -/
def Reading.ofFaults {δ : Type} (diagram : δ) (errors : List ParseError) (notices : List Notice) : Reading δ :=
  if errors = [] then ⟨.ok diagram, notices⟩
  else ⟨.error errors, notices ++ [.failed errors.length]⟩

/-- A reading of another kind of diagram. -/
def Reading.map {δ ε : Type} (f : δ → ε) (r : Reading δ) : Reading ε := ⟨r.outcome.map f, r.notices⟩

end DiagramText

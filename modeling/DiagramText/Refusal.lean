import DiagramText.Diagram

/-!
# Requests that are refused

Where a caller names a dialect or hands over a value, the name may be unknown, and the value may be no diagram or one
with a flaw.  Such a request is refused, for a reason.
-/

namespace DiagramText

/-- Why a request is refused. -/
inductive Refusal where
  /-- There is no dialect of this name. -/
  | unknownDialect (name : Text)
  /-- A value of this type cannot be written. -/
  | notWritable (typeName : Text)
  /-- A value of this type has no graph. -/
  | noGraph (typeName : Text)
  /-- A session of this dialect cannot take a value of this type. -/
  | wrongDiagram (expected : Dialect) (typeName : Text)
  /-- Something inside the value, or the indentation, is not what it should be. -/
  | raised (exception message : Text)
deriving DecidableEq, Repr

/-- The wording of a refusal. -/
def Refusal.message : Refusal → Text
  | unknownDialect name => "Unsupported diagram type: ".toList ++ name
  | notWritable name => "Unsupported diagram model: ".toList ++ name
  | noGraph name => "Unsupported diagram type: ".toList ++ name
  | wrongDiagram expected name =>
    "Expected a ".toList ++ expected.name ++ " diagram, got ".toList ++ name
  | raised _ message => message

/-- What a flaw of a diagram prevents. -/
inductive Flaw where
  | copying (reason : Refusal)
  | writing (reason : Refusal)
deriving DecidableEq, Repr

/-- What a caller hands over: a diagram; something that passes for the diagram `d` but has a flaw, such as a type of its
own, of which there is no writer; or something else, of which only the name of its type counts. -/
inductive Value where
  | diagram (d : Diagram)
  | flawed (d : Diagram) (typeName : Text) (flaw : Flaw)
  | other (typeName : Text)
deriving DecidableEq, Repr

def Value.typeName : Value → Text
  | diagram d => d.typeName
  | flawed _ name _ => name
  | other name => name

/-- The dialect of a name. -/
def Dialect.named (name : Text) : Except Refusal Dialect :=
  match ofName? name with
  | some dialect => .ok dialect
  | none => .error (.unknownDialect name)

/-- The dialect of a name, or that of the text if the name is empty. -/
def Dialect.choose (name s : Text) : Except Refusal Dialect :=
  if name = [] then .ok (detect s) else named name

/-- The text of a value. -/
def Value.write (size : Int) : Value → Except Refusal Text
  | diagram d | flawed d _ (.copying _) => .ok (d.write size)
  | flawed _ _ (.writing reason) => .error reason
  | other name => .error (.notWritable name)

end DiagramText

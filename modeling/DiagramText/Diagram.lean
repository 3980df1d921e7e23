import DiagramText.Er.Reader
import DiagramText.Er.Writer
import DiagramText.Flowchart.Reader
import DiagramText.Flowchart.Writer
import DiagramText.Sequence.Reader
import DiagramText.Sequence.Writer

/-!
# Dialects and diagrams

The three dialects under one roof: which dialect a text is in, how a text of a dialect is read, and how a diagram of any
kind is written.
-/

namespace DiagramText

inductive Dialect where
  | er
  | flowchart
  | sequence
deriving DecidableEq, Repr

namespace Dialect

def all : List Dialect := [er, flowchart, sequence]

def name : Dialect → Text
  | er => "er".toList
  | flowchart => "flowchart".toList
  | sequence => "sequence".toList

def ofName? (name : Text) : Option Dialect := all.find? (·.name = name)

/-- The words that open a text, with their dialects. -/
def headers : List (Text × Dialect) :=
  [(Er.headerWord, er), (Sequence.Kind.header.text, sequence), (Flowchart.Keyword.flowchart.word, flowchart),
    (Flowchart.Keyword.graph.word, flowchart)]

/-- The dialect of a text: the first line that is neither blank nor a comment tells by how it begins. -/
def detect (s : Text) : Dialect :=
  let lines := (Text.lines s).map Text.strip
  match lines.find? fun l => !l.isEmpty && !"%%".toList.isPrefixOf l with
  | some line => ((headers.find? fun h => h.1.isPrefixOf line).map Prod.snd).getD flowchart
  | none => flowchart

end Dialect

/-- A diagram of any kind. -/
inductive Diagram where
  | er (d : Er.Diagram)
  | flowchart (d : Flowchart.Diagram)
  | sequence (d : Sequence.Diagram)
deriving DecidableEq, Repr

namespace Diagram

/-- The diagram without elements. -/
def empty : Dialect → Diagram
  | .er => er {}
  | .flowchart => flowchart {}
  | .sequence => sequence {}

def dialect : Diagram → Dialect
  | er _ => .er
  | flowchart _ => .flowchart
  | sequence _ => .sequence

/-- The name of the kind of diagram. -/
def typeName : Diagram → Text
  | er _ => "ErDiagram".toList
  | flowchart _ => "FlowchartDiagram".toList
  | sequence _ => "SequenceDiagram".toList

/-- The text of a diagram, with `size` blanks for each level of indentation. -/
def write (size : Int) : Diagram → Text
  | er d => d.write size
  | flowchart d => d.write size
  | sequence d => d.write size

end Diagram

/-- Reads a text of a dialect.  Only subgraphs and blocks need room on the stack. -/
def Dialect.read (stack : Stack) : Dialect → Text → Reading Diagram
  | er, s => (Er.read s).map .er
  | flowchart, s => (Flowchart.read stack s).map .flowchart
  | sequence, s => (Sequence.read stack s).map .sequence

end DiagramText

import DiagramText.Diagram
import DiagramText.Proofs.Er.Returns
import DiagramText.Proofs.Flowchart.Returns
import DiagramText.Proofs.Sequence.Returns

/-!
# Line endings

A text may end its lines with a return and a line break.  As long as its strings are closed on their lines, it is read
as if there were no returns: to the same diagram, or with the same errors on the same lines
(`Dialect.read_withReturns`).
-/

namespace DiagramText

/-- The line of an error and its wording. -/
def ParseError.report (e : ParseError) : Nat × Text := (e.place.line, e.fault.message)

/-- Every string of a text is closed by a quote on its line; flowchart text has no strings. -/
def Dialect.StringsClosed : Dialect → Text → Prop
  | er => ClosedStrings Er.rule Er.Kind.string?
  | flowchart => ClosedStrings Flowchart.rule fun _ => none
  | sequence => ClosedStrings Sequence.rule Sequence.Kind.string?

/-- With returns at all line breaks a text has the same diagram, or the same errors on the same lines. -/
theorem Dialect.read_withReturns (dialect : Dialect) (stack : Stack) {s : Text} (h : dialect.StringsClosed s) :
    (dialect.read stack s.withReturns).outcome.mapError (List.map ParseError.report) =
      (dialect.read stack s).outcome.mapError (List.map ParseError.report) := by
  -- the beginning of a line tells which line it is
  have hline : ∀ e : ParseError, (e.move Place.lineStart).report = e.report := fun _ => rfl
  cases dialect with
  | er =>
    have hsame := mapError_congr hline (Er.outcome_withReturns h)
    exact Reading.mapError_map_congr Diagram.er hsame
  | flowchart =>
    have hsame := mapError_congr hline (Flowchart.outcome_withReturns stack s)
    exact Reading.mapError_map_congr Diagram.flowchart hsame
  | sequence =>
    have hsame := mapError_congr hline (Sequence.outcome_withReturns stack h)
    exact Reading.mapError_map_congr Diagram.sequence hsame

/-- A call with a name in quotes, free text, a comment, and a last line in which nobody is named. -/
def call : Text := Text.unlines
  ["participant \"Ann B\" as Ann %% c".toList, "\"Ann B\"->>Bob: is it on? %% c".toList, "activate".toList, []]

theorem read_withReturns_call : Dialect.sequence.StringsClosed call ∧
    (Dialect.sequence.read {} call.withReturns).outcome.mapError (List.map ParseError.report) =
      (Dialect.sequence.read {} call).outcome.mapError (List.map ParseError.report) := by
  have hclosed : Dialect.sequence.StringsClosed call := by
    show ∀ t ∈ stretchesFrom Sequence.rule 0 call, ∀ value ∈ t.kind.string?, t.part call = Text.quote value
    decide +kernel
  exact ⟨hclosed, Dialect.sequence.read_withReturns {} hclosed⟩

end DiagramText

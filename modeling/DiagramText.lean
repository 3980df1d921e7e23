import DiagramText.Main
import DiagramText.Session
import DiagramText.Proofs.Edits
import DiagramText.Proofs.Er.Concatenation
import DiagramText.Proofs.Er.Stability
import DiagramText.Proofs.Errors
import DiagramText.Proofs.Flowchart.Membership
import DiagramText.Proofs.Flowchart.Stability
import DiagramText.Proofs.Sequence.Stability
import DiagramText.Proofs.Session.Positions
import DiagramText.Proofs.Session.Rewriting
import DiagramText.Proofs.Flowchart.Emission
import DiagramText.Proofs.Graph.Ties
import DiagramText.Proofs.Graph.Links
import DiagramText.Proofs.CommandLine.Frame
import DiagramText.Proofs.Cursor
import DiagramText.Proofs.Graph.Order
import DiagramText.Proofs.Sequence.Retelling
import DiagramText.Proofs.Sequence.Comments
import DiagramText.Proofs.Flowchart.Allocation
import DiagramText.Proofs.Rearranging
import DiagramText.Proofs.LineEndings
import DiagramText.Proofs.Descent
import DiagramText.Proofs.Flowchart.Codec

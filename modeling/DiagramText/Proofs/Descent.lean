import DiagramText.Proofs.Er.Descent
import DiagramText.Proofs.Flowchart.Descent
import DiagramText.Proofs.Sequence.Descent

/-!
# How far every text is read

In the recursive readers of the three dialects no call runs for ever: each statement takes up at least the token that
it begins with, whatever is wrong with it, so that the loops around it come to the end of the text.  There they have
found all that the text says, whichever errors stand in it.  Only two things end the reading before that: an entity
block that is not closed gives up the rest of a text when nothing is left, and the stack ends at a subgraph or a block
for which it has no room.
-/

namespace DiagramText

end DiagramText

import DiagramText.Text.Basic

/-!
# Ids

Elements of a diagram refer to one another by ids.  An id comes from outside with the diagram, or it is minted when a
text is read.  A minted id never equals a given one.
-/

namespace DiagramText

/-- What names an entity, node or participant inside its diagram. -/
inductive Id where
  /-- An id that came with the diagram. -/
  | given (name : Text)
  /-- The id of the element number `n` of a text. -/
  | minted (n : Nat)
deriving DecidableEq, Repr

end DiagramText

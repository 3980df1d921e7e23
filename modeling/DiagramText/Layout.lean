/-!
# Grid layout

Elements that come from a text are placed on a grid, row by row, in the order in which the text first mentions them.
Division and remainder are floored, so negative indices and negative column numbers have cells too.
-/

namespace DiagramText

/-- A point of the canvas. -/
structure Position where
  x : Int := 0
  y : Int := 0
deriving DecidableEq, Repr

/-- A grid: the number of columns, the distance between cells, and the first cell. -/
structure Grid where
  columns : Int
  xSpacing : Int
  ySpacing : Int
  xOffset : Int := 50
  yOffset : Int := 50
deriving DecidableEq, Repr

namespace Grid

/-- The position of the cell with the given index. -/
def position (g : Grid) (index : Int) : Position where
  x := g.xOffset + index.fmod g.columns * g.xSpacing
  y := g.yOffset + index.fdiv g.columns * g.ySpacing

/-- The positions of the cells asked for.  A grid without columns has no cell. -/
def positions? (g : Grid) (indices : List Int) : Option (List Position) :=
  if g.columns = 0 ∧ indices ≠ [] then none else some (indices.map g.position)

/-- The grid of entities. -/
def entities : Grid := ⟨3, 300, 250, 50, 50⟩

/-- The grid of nodes when the chart runs from the top down. -/
def vertical : Grid := ⟨3, 200, 120, 50, 50⟩

/-- The grid of nodes when the chart runs in any other direction. -/
def horizontal : Grid := ⟨5, 180, 150, 50, 50⟩

end Grid

end DiagramText

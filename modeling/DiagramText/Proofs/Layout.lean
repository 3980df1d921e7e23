import DiagramText.Er.Reader
import DiagramText.Flowchart.Reader
import DiagramText.Proofs.Keyed
import DiagramText.Proofs.Report

/-!
# Cells of a grid

A grid with columns and with distances between its cells puts no two cells at one place (`Grid.position_inj`): the
column and the row can be read off the position, and they are remainder and quotient of the index.  The elements of a
text are on the cells of the grid of their diagram in order (`Er.position_of_read`, `Flowchart.position_of_read`), and
so no two of them are at one place, whatever became of them while the text was read (`Grid.cells_apart`).
-/

namespace DiagramText

namespace Grid

/-- The grid has columns and rows, and its cells are apart. -/
structure Spread (g : Grid) : Prop where
  columns : g.columns ≠ 0
  xSpacing : g.xSpacing ≠ 0
  ySpacing : g.ySpacing ≠ 0

theorem spread_entities : entities.Spread := ⟨by decide, by decide, by decide⟩

/-- Different cells are at different places, also those with negative indices. -/
theorem position_inj {g : Grid} (h : g.Spread) {i j : Int} (hij : g.position i = g.position j) : i = j := by
  obtain ⟨hx, hy⟩ := Position.mk.inj hij
  have hcolumn : i.fmod g.columns = j.fmod g.columns := Int.eq_of_mul_eq_mul_right h.xSpacing (Int.add_left_cancel hx)
  have hrow : i.fdiv g.columns = j.fdiv g.columns := Int.eq_of_mul_eq_mul_right h.ySpacing (Int.add_left_cancel hy)
  calc i = g.columns * i.fdiv g.columns + i.fmod g.columns := (Int.mul_fdiv_add_fmod i g.columns).symm
    _ = g.columns * j.fdiv g.columns + j.fmod g.columns := by rw [hrow, hcolumn]
    _ = j := Int.mul_fdiv_add_fmod j g.columns

/-- Elements on the cells of a grid, one after the other, are all at different places. -/
theorem nodup_positions {α : Type} {g : Grid} (h : g.Spread) {l : List α} {place : α → Position}
    (hcells : ∀ (i : Nat) a, l[i]? = some a → place a = g.position i) : (l.map place).Nodup :=
  Keyed.nodup_of_numbered (fun _ _ hij => Int.ofNat.inj (position_inj h hij)) hcells

end Grid

theorem Flowchart.Direction.spread_grid (direction : Direction) : direction.grid.Spread := by
  cases direction <;> exact ⟨by decide, by decide, by decide⟩

/-- Entity number `i` of a text is on cell number `i`. -/
theorem Er.position_of_read {s : Text} {d : Diagram} (h : (read s).outcome = .ok d) {i : Nat} {e : Entity}
    (he : d.entities[i]? = some e) : e.position = Grid.entities.position i := by
  obtain ⟨-, rfl⟩ := Reading.ofFaults_eq_ok_iff.1 h
  rw [Schema.toDiagram, List.getElem?_mapIdx] at he
  obtain ⟨a, -, rfl⟩ := Option.map_eq_some_iff.1 he
  rfl

/-- Node number `i` of a text is on cell number `i` of the grid for the direction of the chart. -/
theorem Flowchart.position_of_read {stack : Stack} {s : Text} {d : Diagram} (h : (read stack s).outcome = .ok d)
    {i : Nat} {n : Node} (hn : d.nodes[i]? = some n) : n.position = d.direction.grid.position i := by
  obtain ⟨-, rfl⟩ := Reading.ofFaults_eq_ok_iff.1 h
  rw [Draft.toDiagram, List.getElem?_mapIdx] at hn
  obtain ⟨a, -, rfl⟩ := Option.map_eq_some_iff.1 hn
  rfl

namespace Grid

/-- The cells of a grid do not meet, whether its columns and distances count up or down.  The entities of a text are on
the cells of one grid in order, its nodes on those of the grid for their direction, and no two are at one place. -/
theorem cells_apart :
    (∀ g : Grid, g.Spread → ∀ i j : Int, i ≠ j → g.position i ≠ g.position j) ∧
    (∀ (s : Text) (d : Er.Diagram), (Er.read s).outcome = .ok d →
      (∀ (i : Nat) e, d.entities[i]? = some e → e.position = entities.position i) ∧
      (d.entities.map Er.Entity.position).Nodup) ∧
    ∀ (stack : Stack) (s : Text) (d : Flowchart.Diagram), (Flowchart.read stack s).outcome = .ok d →
      (∀ (i : Nat) n, d.nodes[i]? = some n → n.position = d.direction.grid.position i) ∧
      (d.nodes.map Flowchart.Node.position).Nodup := by
  refine ⟨?_, ?_, ?_⟩
  · intro g hg i j hne hij
    exact hne (position_inj hg hij)
  · intro s d hread
    have hcells : ∀ (i : Nat) e, d.entities[i]? = some e → e.position = entities.position i :=
      fun _ _ he => Er.position_of_read hread he
    exact ⟨hcells, nodup_positions spread_entities hcells⟩
  · intro stack s d hread
    have hcells : ∀ (i : Nat) n, d.nodes[i]? = some n → n.position = d.direction.grid.position i :=
      fun _ _ hn => Flowchart.position_of_read hread hn
    exact ⟨hcells, nodup_positions d.direction.spread_grid hcells⟩

/-- Columns that count down, and a chart with more nodes than its grid has columns. -/
theorem cells_apart_rows : (⟨-3, 7, -2, 50, 50⟩ : Grid).Spread ∧
    (⟨-3, 7, -2, 50, 50⟩ : Grid).position (-4) ≠ (⟨-3, 7, -2, 50, 50⟩ : Grid).position 5 ∧
    ∃ d, (Flowchart.read {} "graph\nA --> B[b] --> C --> D\nA[a]".toList).outcome = .ok d ∧ d.nodes.length = 4 ∧
      (d.nodes.map Flowchart.Node.position).Nodup := by
  have hspread : (⟨-3, 7, -2, 50, 50⟩ : Grid).Spread := ⟨by decide, by decide, by decide⟩
  have hread : ((Flowchart.read {} "graph\nA --> B[b] --> C --> D\nA[a]".toList).outcome.toOption.map
      fun d => d.nodes.length) = some 4 := by decide +kernel
  obtain ⟨d, hd, hlength⟩ := Option.map_eq_some_iff.1 hread
  have hok := eq_ok_of_toOption hd
  exact ⟨hspread, cells_apart.1 _ hspread _ _ (by decide), d, hok, hlength, (cells_apart.2.2 {} _ d hok).2⟩

end Grid

end DiagramText

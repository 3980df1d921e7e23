import DiagramText.Proofs.Er.Merging
import DiagramText.Proofs.Layout
import DiagramText.Proofs.Session.Runs
import Mathlib.Data.List.Nodup

/-!
# Positions along the edits of a text

What a diagram displays, and where, is a keyed list (`Diagram.places`), in which a name may come more than once.  The
diagram of a new text takes each name to the first place that it had before.  So a name that no text leaves out stays at
its place (`pins_run`), and to hand over the same text again moves nothing but elements that share a new name
(`again_eq_iff`).
-/

namespace DiagramText

namespace Diagram

/-- What entities and nodes are displayed as, with their positions. -/
def places : Diagram → Keyed Text Position
  | er d => d.entities.map fun e => (e.name, e.position)
  | flowchart d => d.nodes.map fun n => (n.label, n.position)
  | sequence _ => []

variable {d : Diagram} {f g : Text → Option Position}

theorem positionOf?_eq (k : Text) (d : Diagram) : d.positionOf? k = d.places.get? k := by
  cases d with
  | er d =>
    rw [places, Keyed.get?, List.find?_map, Option.map_map]
    rfl
  | flowchart d =>
    rw [places, Keyed.get?, List.find?_map, Option.map_map]
    rfl
  | sequence d => rfl

theorem places_relocate (f : Text → Option Position) (d : Diagram) :
    (d.relocate f).places = d.places.map fun e => (e.1, (f e.1).getD e.2) := by
  cases d with
  | er d => simp [relocate, places]
  | flowchart d => simp [relocate, places]
  | sequence d => rfl

@[simp] theorem keys_places_relocate (f : Text → Option Position) (d : Diagram) :
    (d.relocate f).places.keys = d.places.keys := by
  rw [places_relocate, Keyed.keys, List.map_map]
  rfl

/-- The first place of a name after it has been moved. -/
theorem positionOf?_relocate (f : Text → Option Position) (d : Diagram) (k : Text) :
    (d.relocate f).positionOf? k = (d.positionOf? k).map fun p => (f k).getD p := by
  rw [positionOf?_eq, positionOf?_eq, places_relocate]
  exact Keyed.get?_map_value (fun k p => (f k).getD p) d.places k

/-- Two ways to move a diagram come to the same if they agree on its elements. -/
theorem relocate_eq_relocate_iff :
    d.relocate f = d.relocate g ↔ ∀ e ∈ d.places, (f e.1).getD e.2 = (g e.1).getD e.2 := by
  cases d with
  | er d => simp [relocate, places]
  | flowchart d => simp [relocate, places]
  | sequence d => simp [relocate, places]

/-- The restored diagram has each name at the first place that it had. -/
theorem restore_some (previous d : Diagram) :
    d.restore (some previous) = d.relocate fun k => previous.positionOf? k := rfl

theorem positionOf?_isSome_iff {k : Text} : (d.positionOf? k).isSome ↔ k ∈ d.places.keys := by
  rw [positionOf?_eq, Option.isSome_iff_exists, Keyed.mem_keys_iff]

/-- The diagram displays the name, and nowhere but at this position. -/
structure Pins (d : Diagram) (k : Text) (p : Position) : Prop where
  mem : k ∈ d.places.keys
  eq : ∀ q, (k, q) ∈ d.places → q = p

theorem Pins.positionOf?_eq {k : Text} {p : Position} (h : d.Pins k p) : d.positionOf? k = some p := by
  obtain ⟨q, hq⟩ := Option.isSome_iff_exists.1 (positionOf?_isSome_iff.2 h.mem)
  rw [Diagram.positionOf?_eq] at hq
  rw [Diagram.positionOf?_eq, hq, h.eq q (Keyed.mem_of_get? hq)]

/-- Where a name comes first, there are all its elements in the next diagram. -/
theorem pins_restore {previous : Diagram} {k : Text} {p : Position} (h : previous.positionOf? k = some p)
    (hk : k ∈ d.places.keys) : (d.restore (some previous)).Pins k p := by
  rw [restore_some]
  constructor
  · rwa [keys_places_relocate]
  · intro q hq
    rw [places_relocate] at hq
    obtain ⟨e, -, he⟩ := List.mem_map.1 hq
    obtain ⟨rfl, rfl⟩ := Prod.mk.inj he
    rw [h]
    rfl

theorem positionOf?_restore_of_none {previous : Diagram} {k : Text} (h : previous.positionOf? k = none) :
    (d.restore (some previous)).positionOf? k = d.positionOf? k := by
  rw [restore_some, positionOf?_relocate, h]
  exact Option.map_id'

/-- Restoring a diagram again from the restored one moves nothing if and only if the names that come more than once
were known before. -/
theorem restore_restore_eq_iff (hd : (d.places.map Prod.snd).Nodup) (previous : Diagram) :
    d.restore (some (d.restore (some previous))) = d.restore (some previous) ↔
      ∀ k, 1 < d.places.keys.count k → k ∈ previous.places.keys := by
  rw [restore_some _ d, restore_some previous d, relocate_eq_relocate_iff, ← restore_some previous d]
  constructor
  · intro hstay k hk
    by_contra hnew
    have hnone : previous.positionOf? k = none := by
      rw [positionOf?_eq]
      exact Keyed.get?_eq_none_iff.2 hnew
    refine absurd hk (Nat.not_lt.2 ((Keyed.count_keys_le_one_iff hd).2 ?_))
    intro a ha
    have hfirst := hstay (k, a) ha
    obtain ⟨q, hq⟩ := Keyed.mem_keys_iff.1 (List.mem_map_of_mem (f := Prod.fst) ha)
    rw [positionOf?_restore_of_none hnone, hnone, positionOf?_eq, hq] at hfirst
    rw [hq]
    exact congrArg some hfirst
  · rintro hknown ⟨k, a⟩ ha
    have hk : k ∈ d.places.keys := List.mem_map_of_mem (f := Prod.fst) ha
    cases hprevious : previous.positionOf? k with
    | some p => rw [(pins_restore hprevious hk).positionOf?_eq]
    | none =>
      -- the name is new, so it comes only once and its element is found where it is
      have hnew : k ∉ previous.places.keys := by
        rw [positionOf?_eq] at hprevious
        exact Keyed.get?_eq_none_iff.1 hprevious
      have hcount : d.places.keys.count k ≤ 1 := Nat.not_lt.1 fun h => hnew (hknown k h)
      rw [positionOf?_restore_of_none hprevious, positionOf?_eq, (Keyed.count_keys_le_one_iff hd).1 hcount a ha]
      rfl

/-- Restoring a diagram a third time moves nothing. -/
theorem restore_restore_restore (previous d : Diagram) :
    d.restore (some (d.restore (some (d.restore (some previous))))) = d.restore (some (d.restore (some previous))) := by
  generalize hr : d.restore (some previous) = r
  have hkeys : r.places.keys = d.places.keys := by
    rw [← hr]
    exact keys_places_relocate _ d
  rw [restore_some _ d, restore_some r d, relocate_eq_relocate_iff, ← restore_some r d]
  rintro ⟨k, a⟩ ha
  have hk : k ∈ d.places.keys := List.mem_map_of_mem (f := Prod.fst) ha
  obtain ⟨p, hp⟩ := Option.isSome_iff_exists.1 (positionOf?_isSome_iff.2 (hkeys ▸ hk))
  rw [hp, (pins_restore hp hk).positionOf?_eq]

end Diagram

/-! ### Fresh positions -/

/-- The elements of a text are on the cells of a grid, in order. -/
theorem Dialect.places_of_read {dialect : Dialect} {stack : Stack} {t : Text} {d : Diagram}
    (h : (dialect.read stack t).outcome = .ok d) :
    ∃ g : Grid, g.Spread ∧ ∀ (i : Nat) e, d.places[i]? = some e → e.2 = g.position i := by
  cases dialect with
  | er =>
    obtain ⟨d', hd', rfl⟩ := Reading.map_eq_ok_iff.1 h
    refine ⟨.entities, Grid.spread_entities, ?_⟩
    intro i e he
    rw [Diagram.places, List.getElem?_map] at he
    obtain ⟨a, ha, rfl⟩ := Option.map_eq_some_iff.1 he
    exact Er.position_of_read hd' ha
  | flowchart =>
    obtain ⟨d', hd', rfl⟩ := Reading.map_eq_ok_iff.1 h
    refine ⟨d'.direction.grid, d'.direction.spread_grid, ?_⟩
    intro i e he
    rw [Diagram.places, List.getElem?_map] at he
    obtain ⟨a, ha, rfl⟩ := Option.map_eq_some_iff.1 he
    exact Flowchart.position_of_read hd' ha
  | sequence =>
    obtain ⟨d', hd', rfl⟩ := Reading.map_eq_ok_iff.1 h
    refine ⟨.entities, Grid.spread_entities, ?_⟩
    intro i e he
    rw [Diagram.places, List.getElem?_nil] at he
    cases he

/-- No two elements of a text are at one place. -/
theorem Dialect.nodup_positions_of_read {dialect : Dialect} {stack : Stack} {t : Text} {d : Diagram}
    (h : (dialect.read stack t).outcome = .ok d) : (d.places.map Prod.snd).Nodup := by
  obtain ⟨g, hg, hcells⟩ := places_of_read h
  exact Grid.nodup_positions hg hcells

/-- No two entities of a text share a name. -/
theorem Dialect.nodup_names_of_read {stack : Stack} {t : Text} {d : Diagram} (h : (er.read stack t).outcome = .ok d) :
    d.places.keys.Nodup := by
  obtain ⟨d', hd', rfl⟩ := Reading.map_eq_ok_iff.1 h
  obtain ⟨-, rfl⟩ := Reading.ofFaults_eq_ok_iff.1 hd'
  rw [Diagram.places, Keyed.keys, List.map_map]
  show (List.map Er.Entity.name _).Nodup
  rw [Er.Schema.map_name_toDiagram]
  exact Er.Schema.nodup_names_ofStatements _

namespace Session

variable {s : Session} {k : Text} {p : Position}

/-! ### Edits of the text -/

/-- A text that does not leave a name out keeps the first position of the name, whether it can be read or not. -/
theorem positionOf?_after_text (h : s.diagram.positionOf? k = some p) {t : Text}
    (hkeep : ∀ d, (s.dialect.read s.stack t).outcome = .ok d → k ∈ d.places.keys) :
    (s.after (.text t)).diagram.positionOf? k = some p := by
  cases hread : (s.dialect.read s.stack t).outcome with
  | ok d =>
    rw [after_text_of_ok hread]
    exact (Diagram.pins_restore h (hkeep d hread)).positionOf?_eq
  | error es =>
    rw [after_text_of_error hread]
    exact h

theorem positionOf?_run (h : s.diagram.positionOf? k = some p) {texts : List Text}
    (hkeep : ∀ t ∈ texts, ∀ d, (s.dialect.read s.stack t).outcome = .ok d → k ∈ d.places.keys) :
    (s.run (texts.map .text)).diagram.positionOf? k = some p := by
  induction texts generalizing s with
  | nil => exact h
  | cons t texts ih =>
    refine ih (positionOf?_after_text h (hkeep t List.mem_cons_self)) fun u hu => ?_
    rw [(s.effect (.text t)).dialect_eq, (s.effect (.text t)).stack_eq]
    exact hkeep u (List.mem_cons_of_mem _ hu)

/-- A name that no text leaves out is where it was at first, with all its elements once a text has been read. -/
theorem pins_run (h : s.diagram.positionOf? k = some p) {texts : List Text}
    (hkeep : ∀ t ∈ texts, ∀ d, (s.dialect.read s.stack t).outcome = .ok d → k ∈ d.places.keys)
    (hread : ∃ t ∈ texts, ∃ d, (s.dialect.read s.stack t).outcome = .ok d) :
    (s.run (texts.map .text)).diagram.Pins k p := by
  induction texts using List.reverseRecOn with
  | nil =>
    obtain ⟨t, ht, -⟩ := hread
    cases ht
  | append_singleton texts t ih =>
    have hbefore : ∀ u ∈ texts, ∀ d, (s.dialect.read s.stack u).outcome = .ok d → k ∈ d.places.keys :=
      fun u hu => hkeep u (List.mem_append_left _ hu)
    have hdialect : (s.run (texts.map .text)).dialect = s.dialect := dialect_run _ _
    have hstack : (s.run (texts.map .text)).stack = s.stack := stack_run _ _
    rw [List.map_append, List.map_singleton, run_concat]
    cases hlast : (s.dialect.read s.stack t).outcome with
    | ok d =>
      rw [after_text_of_ok (by rw [hdialect, hstack, hlast])]
      exact Diagram.pins_restore (positionOf?_run h hbefore) (hkeep t List.mem_concat_self d hlast)
    | error es =>
      -- the diagram is still that of a text before
      rw [after_text_of_error (by rw [hdialect, hstack, hlast])]
      refine ih hbefore ?_
      obtain ⟨u, hu, d, hd⟩ := hread
      rcases List.mem_append.1 hu with hu | hu
      · exact ⟨u, hu, d, hd⟩
      · rw [List.mem_singleton.1 hu, hlast] at hd
        cases hd

/-- A session in which an entity has been moved, and the texts that follow. -/
def moved : Session := (start default .er [] none 4).run [.text "erDiagram\nA\nB".toList, .move 1 ⟨999, 7⟩]

def edits : List Text := ["erDiagram\nB \x7b".toList, "erDiagram\nC ||--o\x7b B : has".toList, "B\nA".toList]

theorem pins_run_edits : moved.diagram.positionOf? "B".toList = some ⟨999, 7⟩ ∧
    (moved.run (edits.map .text)).diagram.Pins "B".toList ⟨999, 7⟩ := by
  have hmoved : moved.diagram.positionOf? "B".toList = some ⟨999, 7⟩ := by decide +kernel
  have hkeep : ∀ t ∈ edits, ∀ d ∈ (moved.dialect.read moved.stack t).outcome.toOption, "B".toList ∈ d.places.keys := by
    decide +kernel
  refine ⟨hmoved, pins_run hmoved ?_ ?_⟩
  · intro t ht d hd
    exact hkeep t ht d (by rw [hd]; rfl)
  · obtain ⟨d, hd⟩ : ∃ d, (moved.dialect.read moved.stack "B\nA".toList).outcome.toOption = some d :=
      Option.isSome_iff_exists.1 (by decide +kernel)
    exact ⟨"B\nA".toList, by decide, d, eq_ok_of_toOption hd⟩

/-! ### The same text again -/

/-- Taking a text a second time moves nothing if and only if each name that its diagram displays more than once was
displayed before.  With entities this is always so.  In any case all elements of a name are then where the first of them
was, and a third time nothing moves. -/
theorem again_eq_iff {t : Text} {d : Diagram} (h : (s.dialect.read s.stack t).outcome = .ok d) :
    let once := s.after (.text t)
    let twice := once.after (.text t)
    let thrice := twice.after (.text t)
    (twice.diagram = once.diagram ↔ ∀ k, 1 < d.places.keys.count k → k ∈ s.diagram.places.keys) ∧
      (s.dialect = .er → twice.diagram = once.diagram) ∧
      (∀ k p, once.diagram.positionOf? k = some p → twice.diagram.Pins k p) ∧ thrice.diagram = twice.diagram := by
  intro once twice thrice
  have honce : once = { s with text := t, diagram := d.restore s.diagram, errors := [], flaw := none } :=
    after_text_of_ok h
  have htwice : twice = { once with text := t, diagram := d.restore once.diagram, errors := [], flaw := none } := by
    apply after_text_of_ok
    rw [honce]
    exact h
  have hthrice : thrice = { twice with text := t, diagram := d.restore twice.diagram, errors := [], flaw := none } := by
    apply after_text_of_ok
    rw [htwice, honce]
    exact h
  have hiff : twice.diagram = once.diagram ↔ ∀ k, 1 < d.places.keys.count k → k ∈ s.diagram.places.keys := by
    rw [htwice, honce]
    exact Diagram.restore_restore_eq_iff (Dialect.nodup_positions_of_read h) s.diagram
  refine ⟨hiff, ?_, ?_, ?_⟩
  · intro her
    rw [her] at h
    refine hiff.2 fun k hk => absurd hk (Nat.not_lt.2 ?_)
    exact List.nodup_iff_count_le_one.1 (Dialect.nodup_names_of_read h) k
  · intro k p hp
    have hk : k ∈ once.diagram.places.keys := Diagram.positionOf?_isSome_iff.1 (Option.isSome_of_eq_some hp)
    rw [htwice]
    refine Diagram.pins_restore hp ?_
    rw [honce] at hk
    rwa [Diagram.restore_some, Diagram.keys_places_relocate] at hk
  · rw [hthrice, htwice, honce]
    exact Diagram.restore_restore_restore s.diagram d

/-- A session that displays a seat, and a text with two seats. -/
def seated : Session := (start default .flowchart [] none 4).run [.text "flowchart TD\nA[seat] --> B".toList]

def seats : Text := "flowchart TD\nC\nA[seat] --> B[seat]".toList

theorem again_seats : ∃ d, (seated.dialect.read seated.stack seats).outcome = .ok d ∧
    1 < d.places.keys.count "seat".toList ∧
    ((seated.after (.text seats)).after (.text seats)).diagram = (seated.after (.text seats)).diagram := by
  obtain ⟨d, hd⟩ : ∃ d, (seated.dialect.read seated.stack seats).outcome.toOption = some d :=
    Option.isSome_iff_exists.1 (by decide +kernel)
  have hseat : ∀ d ∈ (seated.dialect.read seated.stack seats).outcome.toOption, 1 < d.places.keys.count "seat".toList ∧
      ∀ k ∈ d.places.keys, 1 < d.places.keys.count k → k ∈ seated.diagram.places.keys := by
    decide +kernel
  obtain ⟨hshared, hknown⟩ := hseat d hd
  have hread := eq_ok_of_toOption hd
  refine ⟨d, hread, hshared, (again_eq_iff hread).1.2 ?_⟩
  intro k hk
  exact hknown k (List.count_pos_iff.1 (Nat.zero_lt_of_lt hk)) hk

/-- Not every text leaves everything in place when it is taken again: two new elements with one name are drawn together
the second time. -/
theorem not_again_eq : ¬ ∀ (dialect : Dialect) (steps : List Step) (t : Text) (d : Diagram), dialect ≠ .sequence →
    (dialect.read {} t).outcome = .ok d →
      ((start {} dialect [] none 4).run (steps ++ [.text t, .text t])).diagram =
        ((start {} dialect [] none 4).run (steps ++ [.text t])).diagram := by
  intro hagain
  have hsome : (Dialect.flowchart.read {} seats).outcome.toOption.isSome := by decide +kernel
  obtain ⟨d, hd⟩ := Option.isSome_iff_exists.1 hsome
  refine absurd (hagain .flowchart [] seats d nofun (eq_ok_of_toOption hd)) ?_
  decide +kernel

end Session

end DiagramText

import DiagramText.Proofs.Er.Stability
import DiagramText.Proofs.Flowchart.Stability
import DiagramText.Proofs.Session.Positions

/-!
# Writing the diagram of a session and reading it again

A text is read, elements are moved about, and the diagram is handed over to be written; then the text of the session is
read.  The written text lists the elements in another order and so puts them on other cells of the grid, but each is
taken back to where its name was.  What a text can hold does not depend on positions (`unplaced`), so the diagram is
read back whatever was moved, and names that are not shared tell the elements apart.  The diagram that comes back is
the one that was written, up to ids and order (`rewrites_reread`).
-/

namespace DiagramText

/-- A list of results that are all there. -/
private theorem map_filterMap_of_isSome {α β γ : Type} {f : α → Option β} {l : List α} (h : ∀ a ∈ l, (f a).isSome)
    (g : β → γ) : (l.filterMap f).map (fun b => some (g b)) = l.map fun a => (f a).map g := by
  induction l with
  | nil => rfl
  | cons a l ih =>
    obtain ⟨b, hb⟩ := Option.isSome_iff_exists.1 (h a List.mem_cons_self)
    rw [List.filterMap_cons_some hb, List.map_cons, List.map_cons, hb, ih fun x hx => h x (List.mem_cons_of_mem a hx)]
    rfl

/-! ### Entities -/

namespace Er

/-- The entity without its position. -/
def Entity.unplaced (e : Entity) : Entity := { e with position := {} }

/-- The entity without its id. -/
def Entity.unnumbered (e : Entity) : Entity := { e with id := .minted 0 }

/-- The attribute as it is read again: a primary key is not called unique, and an empty comment is none. -/
def Attribute.rewritten (a : Attribute) : Attribute :=
  { a with
    isUnique := a.isUnique && !a.isPrimaryKey
    comment := a.comment.filter (· ≠ []) }

/-- The entity as it is read again, without its id. -/
def Entity.rewritten (e : Entity) : Entity :=
  { e.unnumbered with attributes := e.attributes.map Attribute.rewritten }

namespace Diagram

variable {d m : Diagram}

/-- The diagram without the positions of its entities. -/
def unplaced (d : Diagram) : Diagram := { d with entities := d.entities.map Entity.unplaced }

/-- The diagram with each entity where `place` has its name, if it has it. -/
def settle (place : Text → Option Position) (d : Diagram) : Diagram :=
  { d with entities := d.entities.map fun e => { e with position := (place e.name).getD e.position } }

/-- `m` is `d` read again: the entities are the same up to ids and order, and the relations are the same in order. -/
structure Rewrites (m d : Diagram) : Prop where
  names : (m.entities.map Entity.name).Nodup
  entities : (m.entities.map Entity.unnumbered).Perm (d.entities.map Entity.rewritten)
  resolved : ∀ r ∈ d.relations, (d.resolve? r).isSome
  relations : m.relations.map m.resolve? = d.relations.map fun r => (d.resolve? r).map Relation.normal

theorem map_unplaced {β : Type} {f : Entity → β} (hf : ∀ e, f e.unplaced = f e) (d : Diagram) :
    d.unplaced.entities.map f = d.entities.map f := by
  rw [unplaced, List.map_map]
  exact List.map_congr_left fun e _ => hf e

theorem resolve?_unplaced (d : Diagram) : d.unplaced.resolve? = d.resolve? := by
  funext r
  have hentity : ∀ id, d.unplaced.entity? id = (d.entity? id).map Entity.unplaced := by
    intro id
    rw [entity?, unplaced, List.find?_map]
    rfl
  simp only [resolve?, hentity]
  cases d.entity? r.source with
  | none => rfl
  | some source => cases d.entity? r.target <;> rfl

/-- What is said about a diagram that a text can hold, apart from its positions. -/
structure Sound (d : Diagram) : Prop where
  writable : d.Writable
  names : (d.entities.map Entity.name).Nodup
  nullable : ∀ e ∈ d.entities, ∀ a ∈ e.attributes, a.isNullable = !a.isPrimaryKey
  resolved : ∀ r ∈ d.relations, (d.resolve? r).isSome

theorem sound_of_read {t : Text} (h : (read t).outcome = .ok d) : d.Sound :=
  ⟨(writable_of_read h).1, (writable_of_read h).2, nullable_of_read h, resolve?_isSome_of_read h⟩

theorem sound_unplaced_iff : d.unplaced.Sound ↔ d.Sound := by
  have hforall : ∀ p : Entity → Prop, (∀ e ∈ d.unplaced.entities, p e) ↔ ∀ e ∈ d.entities, p e.unplaced := by
    intro p
    rw [unplaced, List.forall_mem_map]
  have hnames : d.unplaced.entities.map Entity.name = d.entities.map Entity.name := map_unplaced (fun _ => rfl) d
  have hids : d.unplaced.entities.map Entity.id = d.entities.map Entity.id := map_unplaced (fun _ => rfl) d
  have hwritable : d.unplaced.Writable ↔ d.Writable := by
    constructor
    · rintro ⟨h₁, h₂, h₃, h₄⟩
      exact ⟨hids ▸ h₁, (hforall _).1 h₂, (hforall _).1 h₃, h₄⟩
    · rintro ⟨h₁, h₂, h₃, h₄⟩
      exact ⟨hids ▸ h₁, (hforall _).2 h₂, (hforall _).2 h₃, h₄⟩
  constructor
  · rintro ⟨h₁, h₂, h₃, h₄⟩
    exact ⟨hwritable.1 h₁, hnames ▸ h₂, (hforall _).1 h₃, resolve?_unplaced d ▸ h₄⟩
  · rintro ⟨h₁, h₂, h₃, h₄⟩
    exact ⟨hwritable.2 h₁, hnames ▸ h₂, (hforall _).2 h₃, (resolve?_unplaced d).symm ▸ h₄⟩

/-- A diagram merged from a sound one, with each entity taken back to the place of its name, is the diagram again. -/
theorem Sound.rewrites (h : d.Sound) (hm : m.MergeOf d) :
    (m.settle fun name => (d.named? name).map Entity.position).Rewrites d := by
  generalize hr : m.settle (fun name => (d.named? name).map Entity.position) = r
  have hunplaced : r.unplaced = m.unplaced := by
    rw [← hr, settle, unplaced, unplaced, List.map_map]
    rfl
  have hnames : r.entities.map Entity.name = m.entities.map Entity.name := by
    rw [← map_unplaced (fun _ => rfl) r, hunplaced, map_unplaced fun _ => rfl]
  have hresolve : r.resolve? = m.resolve? := by
    rw [← resolve?_unplaced r, hunplaced, resolve?_unplaced]
  -- an entity is known by its name
  have hfound : ∀ x ∈ d.entities, d.named? x.name = some x := fun x hx => Keyed.find?_of_nodup h.names hx
  have hknown : ∀ e ∈ m.entities, ∃ x ∈ d.entities, x.name = e.name ∧
      e.attributes = x.attributes.map Attribute.rewritten := by
    intro e he
    obtain ⟨x, hx, hname⟩ := List.mem_map.1 ((hm.mem_names e.name).1 (List.mem_map_of_mem he))
    refine ⟨x, hx, hname, ?_⟩
    rw [hm.attributes e he, ← hname, Keyed.filter_of_nodup h.names hx, List.flatMap_singleton]
    apply List.map_congr_left
    intro a ha
    rw [Attribute.normal, Attribute.rewritten, ← h.nullable x hx a ha]
  let again : Text → Entity := fun n => ((d.named? n).map Entity.rewritten).getD ⟨.minted 0, n, [], {}⟩
  have hagain : d.entities.map Entity.rewritten = (d.entities.map Entity.name).map again := by
    rw [List.map_map]
    apply List.map_congr_left
    intro x hx
    simp only [Function.comp_apply, again, hfound x hx]
    rfl
  have hrestored : r.entities.map Entity.unnumbered = (m.entities.map Entity.name).map again := by
    rw [← hr, settle, List.map_map, List.map_map]
    apply List.map_congr_left
    intro e he
    obtain ⟨x, hx, hname, hattributes⟩ := hknown e he
    simp only [Function.comp_apply, again, ← hname, hfound x hx]
    rw [Entity.unnumbered, hattributes]
    rfl
  have hperm : (m.entities.map Entity.name).Perm (d.entities.map Entity.name) :=
    (List.perm_ext_iff_of_nodup hm.names h.names).2 hm.mem_names
  refine ⟨hnames ▸ hm.names, ?_, h.resolved, ?_⟩
  · rw [hrestored, hagain]
    exact hperm.map again
  · have hrelations : r.relations = m.relations := by
      rw [← hr]
      rfl
    rw [hresolve, hrelations, hm.relations]
    exact map_filterMap_of_isSome h.resolved Relation.normal

end Diagram

end Er

/-! ### Nodes -/

namespace Flowchart.Diagram

variable {d m : Diagram}

/-- The diagram without the positions of its nodes. -/
def unplaced (d : Diagram) : Diagram := { d with nodes := d.nodes.map Node.unplaced }

/-- The diagram with each node where `place` has its label, if it has it. -/
def settle (place : Text → Option Position) (d : Diagram) : Diagram :=
  { d with nodes := d.nodes.map fun n => { n with position := (place n.label).getD n.position } }

/-- `m` is `d` read again: the same chart up to ids and the order of nodes and of edges. -/
def Rewrites (m d : Diagram) : Prop :=
  ∃ f, d.Separates f ∧ m.direction = d.direction ∧ m.nodes.Perm (d.rename f).nodes ∧ m.edges.Perm (d.rename f).edges ∧
    m.subgraphs = (d.rename f).subgraphs

theorem map_unplaced {β : Type} {f : Node → β} (hf : ∀ n, f n.unplaced = f n) (d : Diagram) :
    d.unplaced.nodes.map f = d.nodes.map f := by
  rw [unplaced, List.map_map]
  exact List.map_congr_left fun n _ => hf n

theorem tidy_unplaced_iff : d.unplaced.Tidy ↔ d.Tidy := by
  have hids : d.unplaced.nodes.map Node.id = d.nodes.map Node.id := map_unplaced (fun _ => rfl) d
  have hnodes : (∀ n ∈ d.unplaced.nodes, n.shape.Clear n.label) ↔ ∀ n ∈ d.nodes, n.shape.Clear n.label := by
    rw [unplaced, List.forall_mem_map]
    rfl
  constructor
  · rintro ⟨h₁, h₂, h₃, h₄, h₅, h₆, h₇⟩
    exact ⟨hids ▸ h₁, hnodes.1 h₂, hids ▸ h₃, h₄, h₅, h₆, hids ▸ h₇⟩
  · rintro ⟨h₁, h₂, h₃, h₄, h₅, h₆, h₇⟩
    exact ⟨hids ▸ h₁, hnodes.2 h₂, hids ▸ h₃, h₄, h₅, h₆, hids ▸ h₇⟩

/-- The labels tell the nodes apart, and no label and no title holds a quote. -/
structure Telling (d : Diagram) : Prop where
  labels : (d.nodes.map Node.label).Nodup
  nodes : ∀ n ∈ d.nodes, '"' ∉ n.label
  titles : ∀ g ∈ d.subgraphs, '"' ∉ g.label

theorem telling_unplaced_iff : d.unplaced.Telling ↔ d.Telling := by
  have hlabels : d.unplaced.nodes.map Node.label = d.nodes.map Node.label := map_unplaced (fun _ => rfl) d
  have hnodes : (∀ n ∈ d.unplaced.nodes, '"' ∉ n.label) ↔ ∀ n ∈ d.nodes, '"' ∉ n.label := by
    rw [unplaced, List.forall_mem_map]
    rfl
  constructor
  · rintro ⟨h₁, h₂, h₃⟩
    exact ⟨hlabels ▸ h₁, hnodes.1 h₂, h₃⟩
  · rintro ⟨h₁, h₂, h₃⟩
    exact ⟨hlabels ▸ h₁, hnodes.2 h₂, h₃⟩

theorem Telling.keeps (h : d.Telling) : d.Keeps :=
  ⟨fun n hn => Or.inl (h.nodes n hn), fun g hg => Or.inl (h.titles g hg)⟩

/-- A diagram that agrees with one whose labels tell its nodes apart, with each node taken back to the place of its
label, is the diagram again. -/
theorem Telling.rewrites (h : d.Telling) (hm : d.Agrees m) :
    (m.settle fun label => (d.nodes.find? (·.label = label)).map Node.position).Rewrites d := by
  obtain ⟨f, hf, hdirection, hnodes, hedges, hsubgraphs⟩ := hm
  refine ⟨f, hf, hdirection, ?_, hedges, hsubgraphs⟩
  generalize hplace : (fun label => (d.nodes.find? (·.label = label)).map Node.position) = place
  have hfound : ∀ x ∈ d.nodes, place x.label = some x.position := by
    intro x hx
    rw [← hplace]
    exact congrArg (Option.map Node.position) (Keyed.find?_of_nodup h.labels hx)
  let back : Node → Node := fun n => { n with position := (place n.label).getD {} }
  have hplaced : (d.rename f).nodes = ((d.rename f).nodes.map Node.unplaced).map back := by
    rw [rename, List.map_map, List.map_map]
    apply List.map_congr_left
    intro x hx
    simp only [Function.comp_apply, back, Node.unplaced, hfound x hx]
    rfl
  have hsettled : (m.settle place).nodes = (m.nodes.map Node.unplaced).map back := by
    rw [settle, List.map_map]
    apply List.map_congr_left
    intro n hn
    -- its label is that of a node of the diagram
    have hmem := hnodes.mem_iff.1 (List.mem_map_of_mem (f := Node.unplaced) hn)
    obtain ⟨y, hy, hyn⟩ := List.mem_map.1 hmem
    obtain ⟨x, hx, rfl⟩ := List.mem_map.1 hy
    have hlabel : x.label = n.label := (congrArg Node.label hyn :)
    have hknown := hfound x hx
    rw [hlabel] at hknown
    simp only [Function.comp_apply, back, Node.unplaced, hknown]
    rfl
  rw [hplaced, hsettled]
  exact hnodes.map back

end Flowchart.Diagram

/-! ### Sessions -/

namespace Diagram

/-- The diagram without the positions of its elements. -/
def unplaced : Diagram → Diagram
  | er d => er d.unplaced
  | flowchart d => flowchart d.unplaced
  | sequence d => sequence d

/-- All diagrams of entities come back when they are written; of the charts, those whose labels tell their nodes apart
and can be read back. -/
def Rewritable : Diagram → Prop
  | er _ => True
  | flowchart d => d.Telling
  | sequence _ => False

/-- What a text can hold that comes back when it is written. -/
def Sound : Diagram → Prop
  | er d => d.Sound
  | flowchart d => d.Tidy ∧ d.Telling
  | sequence _ => False

/-- `m` is `d` read again. -/
def Rewrites : Diagram → Diagram → Prop
  | er m, er d => m.Rewrites d
  | flowchart m, flowchart d => m.Rewrites d
  | _, _ => False

theorem sound_unplaced_iff {d : Diagram} : d.unplaced.Sound ↔ d.Sound := by
  cases d with
  | er d => exact Er.Diagram.sound_unplaced_iff
  | flowchart d => exact and_congr Flowchart.Diagram.tidy_unplaced_iff Flowchart.Diagram.telling_unplaced_iff
  | sequence d => exact Iff.rfl

theorem sound_of_read {dialect : Dialect} {stack : Stack} {t : Text} {d : Diagram}
    (h : (dialect.read stack t).outcome = .ok d) (hd : d.Rewritable) : d.Sound := by
  cases dialect with
  | er =>
    obtain ⟨d', hread, rfl⟩ := Reading.map_eq_ok_iff.1 h
    exact Er.Diagram.sound_of_read hread
  | flowchart =>
    obtain ⟨d', hread, rfl⟩ := Reading.map_eq_ok_iff.1 h
    exact ⟨Flowchart.tidy_of_read hread, hd⟩
  | sequence =>
    obtain ⟨d', -, rfl⟩ := Reading.map_eq_ok_iff.1 h
    exact hd.elim

/-- What is written is read, and is the diagram again when its elements are back at their names. -/
theorem Sound.rewrites {d : Diagram} (h : d.Sound) (stack : Stack) (size : Int) :
    ∃ m, (d.dialect.read stack (d.write size)).outcome = .ok m ∧ (m.restore d).Rewrites d := by
  cases d with
  | er d =>
    have hsound : d.Sound := h
    have hread := Er.read_write hsound.writable size
    exact ⟨_, Reading.map_eq_ok_iff.2 ⟨_, hread, rfl⟩, hsound.rewrites (Er.mergeOf_statements hsound.writable)⟩
  | flowchart d =>
    obtain ⟨htidy, htelling⟩ : d.Tidy ∧ d.Telling := h
    obtain ⟨m, hread, hagrees, -⟩ := Flowchart.read_write_of_keeps htidy htelling.keeps stack size
    exact ⟨_, Reading.map_eq_ok_iff.2 ⟨_, hread, rfl⟩, htelling.rewrites hagrees⟩
  | sequence d => exact h.elim

theorem unplaced_relocate (place : Text → Option Position) (d : Diagram) :
    (d.relocate place).unplaced = d.unplaced := by
  cases d with
  | er d => simp [relocate, unplaced, Er.Diagram.unplaced, Er.Entity.unplaced]
  | flowchart d => simp [relocate, unplaced, Flowchart.Diagram.unplaced, Flowchart.Node.unplaced]
  | sequence d => rfl

theorem unplaced_move (i : Nat) (p : Position) (d : Diagram) : (d.move i p).unplaced = d.unplaced := by
  cases d with
  | er d =>
    have hentities := Keyed.map_modify (f := fun e => { e with position := p }) (g := Er.Entity.unplaced)
      (fun _ => rfl) d.entities i
    exact congrArg (fun es => er { d with entities := es }) hentities
  | flowchart d =>
    have hnodes := Keyed.map_modify (f := fun n => { n with position := p }) (g := Flowchart.Node.unplaced)
      (fun _ => rfl) d.nodes i
    exact congrArg (fun ns => flowchart { d with nodes := ns }) hnodes
  | sequence d => rfl

end Diagram

namespace Session

variable {s : Session}

/-- Moves leave all of the diagram but its positions. -/
private theorem unplaced_run_moves (s : Session) (moves : List (Nat × Position)) :
    (s.run (moves.map fun m => .move m.1 m.2)).diagram.unplaced = s.diagram.unplaced := by
  induction moves generalizing s with
  | nil => rfl
  | cons m moves ih =>
    rw [List.map_cons, run_cons, ih]
    exact Diagram.unplaced_move m.1 m.2 s.diagram

/-- Moves leave a diagram that can be written one. -/
private theorem flaw_run_moves (s : Session) (moves : List (Nat × Position)) :
    (s.run (moves.map fun m => .move m.1 m.2)).flaw = s.flaw := by
  induction moves generalizing s with
  | nil => rfl
  | cons m moves ih => exact ih _

/-- A text is read and elements are moved about; when the diagram is then written, and the text that the session shows
is read, the session accepts it and has the diagram again. -/
theorem rewrites_reread {t : Text} {d : Diagram} (h : (s.dialect.read s.stack t).outcome = .ok d) (hd : d.Rewritable)
    (moves : List (Nat × Position)) :
    let current := (s.after (.text t)).run (moves.map fun m => .move m.1 m.2)
    ∃ written reread, current.apply .remodel = (written, .ok (.text written.text)) ∧
      written.apply (.text written.text) = (reread, .ok (.accepted true)) ∧ reread.errors = [] ∧
      reread.diagram.Rewrites current.diagram := by
  intro current
  have hafter := after_text_of_ok h
  have hunplaced : current.diagram.unplaced = d.unplaced := by
    rw [unplaced_run_moves, hafter]
    exact Diagram.unplaced_relocate (fun name => (some s.diagram).bind (·.positionOf? name)) d
  have hdialect : current.diagram.dialect = current.dialect := by
    have hstart : (s.after (.text t)).diagram.dialect = (s.after (.text t)).dialect := by
      rw [hafter]
      exact (Diagram.dialect_restore _ _).trans (Dialect.dialect_of_read h)
    exact (dialect_diagram_run hstart _).trans (dialect_run _ _).symm
  have hsound : current.diagram.Sound := by
    rw [← Diagram.sound_unplaced_iff, hunplaced, Diagram.sound_unplaced_iff]
    exact Diagram.sound_of_read h hd
  have hvalue : current.value = .diagram current.diagram := by rw [value, flaw_run_moves, hafter]
  obtain ⟨m, hread, hrewrites⟩ := hsound.rewrites current.stack current.size
  rw [hdialect] at hread
  let text := current.diagram.write current.size
  refine ⟨{ current with text, errors := [], flaw := none },
    { current with text, diagram := m.restore current.diagram, errors := [], flaw := none }, ?_, ?_, rfl, hrewrites⟩
  · have hhanded : current.handed? .remodel = some (.diagram current.diagram) := congrArg some hvalue
    rw [apply_of_handed? hhanded, takeModel_of_isOf hdialect]
  · simp only [apply, takeText, text, hread]

/-- A session that has shown one of the nodes of the text that follows, and the chart of this text. -/
def desk : Session := (start default .flowchart [] none 2).run [.text "flowchart LR\nD".toList, .move 0 ⟨5, 7⟩]

def deskText : Text := "flowchart TD\nsubgraph side\nC(left)\nend\nD\nA --> C".toList

def deskChart : Flowchart.Diagram where
  nodes := [
    { id := .minted 0, label := "left".toList, shape := .rounded, position := { x := 50, y := 50 } },
    { id := .minted 1, label := "D".toList, position := { x := 250, y := 50 } },
    { id := .minted 2, label := "A".toList, position := { x := 450, y := 50 } }]
  edges := [{ source := .minted 2, target := .minted 0 }]
  subgraphs := [{ label := "side".toList, members := [.minted 0] }]

theorem rewrites_reread_desk : (desk.dialect.read desk.stack deskText).outcome = .ok (.flowchart deskChart) ∧
    (Diagram.flowchart deskChart).Rewritable ∧
    let current := (desk.after (.text deskText)).run ([(2, ⟨0, 0⟩), (0, ⟨900, 20⟩)].map fun m => .move m.1 m.2)
    ∃ written reread, current.apply .remodel = (written, .ok (.text written.text)) ∧
      written.apply (.text written.text) = (reread, .ok (.accepted true)) ∧ reread.errors = [] ∧
      reread.diagram.Rewrites current.diagram := by
  have h : (desk.dialect.read desk.stack deskText).outcome = .ok (.flowchart deskChart) :=
    eq_ok_of_toOption (by decide +kernel)
  have htelling : deskChart.Telling := ⟨by decide, by decide, by decide⟩
  exact ⟨h, htelling, rewrites_reread h htelling _⟩

end Session

end DiagramText

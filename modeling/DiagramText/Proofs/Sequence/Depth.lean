import DiagramText.Proofs.Nesting
import DiagramText.Proofs.Sequence.Bracketing

/-!
# The depth of blocks

Whether the stack reaches far enough for a text that was written can be told from the diagram: a block needs room for
itself and the blocks that it lies in (`Diagram.NestsWithin`).  For these are the blocks that are open where it opens
(`Laminar.perm_opening`), and the number of blocks that are open at once is the height of the stack
(`length_openBehind`).  A diagram that was read needs no more room than its text (`nestsWithin_of_read`): as many
blocks of the draft cover the beginning of a block as are open when it opens.
-/

namespace DiagramText.Sequence

/-! ### What opens and closes -/

/-- What a line does to the number of open blocks. -/
def Happening.turn : Happening → Turn
  | opening _ => .down
  | closing _ => .up
  | _ => .level

/-- What an event does to the number of open blocks. -/
def Event.turn (e : Event) : Turn :=
  match e.kind with
  | .opening => .down
  | .closing => .up
  | _ => .level

theorem Happening.turn_event (key : Id → Text) (h : Happening) : (h.event key).turn = h.turn := by cases h <;> rfl

theorem Happening.turn_statement (key : Id → Text) (h : Happening) : (h.statement key).turn = h.turn := by
  cases h <;> rfl

/-- As many blocks are open as stand on the stack. -/
theorem length_openBehind (hs : List Happening) :
    (openBehind hs).length = Depth.depthBehind Happening.turn 0 hs := by
  induction hs using List.reverseRecOn with
  | nil => rfl
  | append_singleton hs h ih =>
    rw [openBehind_append, Depth.depthBehind_append, ← ih]
    cases h with
    | closing b => exact List.length_tail
    | message | note | opening | branch | activate | deactivate => rfl

namespace Diagram

variable {d : Diagram}

/-- The events of a diagram nest as deep as the happenings that they are written for. -/
theorem deepest_sortedEvents {key : Id → Text} {hs : List Happening}
    (h : d.sortedEvents = hs.map (Happening.event key)) :
    Depth.deepest Event.turn 0 d.sortedEvents = Depth.deepest Happening.turn 0 hs := by
  rw [h]
  exact Depth.deepest_map (Happening.turn_event key)

/-! ### Room for blocks -/

/-- No block lies in more blocks than there is room for, where each lies in itself. -/
def NestsWithin (d : Diagram) (limit : Nat) : Prop :=
  ∀ b ∈ d.frames, (d.frames.filter fun c => b.LiesIn c).length ≤ limit

instance (d : Diagram) (limit : Nat) : Decidable (d.NestsWithin limit) :=
  inferInstanceAs (Decidable (∀ b ∈ d.frames, (d.frames.filter fun c => b.LiesIn c).length ≤ limit))

section

variable (hd : d.Laminar)
include hd

/-- Where a block opens, the blocks that it lies in are open. -/
theorem Laminar.perm_opening {before after : List Happening} {b : Frame}
    (hs : d.script = before ++ .opening b :: after) :
    (b :: openBehind before).Perm (d.frames.filter fun c => b.LiesIn c) := by
  have hb : b ∈ d.frames := of_script hs
  have hn := hd.nest hs
  have hnested := (hn.step hd hs).nested
  rw [Happening.inside, List.pairwise_cons] at hnested
  have hnodup : (b :: openBehind before).Nodup :=
    List.nodup_cons.2 ⟨fun hmem => (hnested.1 b hmem).1 rfl, hnested.2.imp fun h => h.1⟩
  rw [List.perm_ext_iff_of_nodup hnodup (hd.nodup.filter _)]
  intro c
  rw [List.mem_cons, List.mem_filter, decide_eq_true_eq]
  constructor
  · rintro (rfl | hc)
    · exact ⟨hb, Int.le_refl _, Int.le_refl _⟩
    · exact ⟨of_script_before hs ((hn.mem c).1 hc).1, (hnested.1 c hc).2⟩
  · rintro ⟨hc, hin⟩
    by_cases hcb : c = b
    · exact Or.inl hcb
    · obtain ⟨hdiff, -⟩ := hd.relate hb hc (Ne.symm hcb)
      have hforward := hd.forward b hb
      simp only [Frame.LiesIn] at hin
      refine Or.inr ((hn.mem c).2 ⟨?_, ?_⟩)
      · -- the wider block opens first
        refine (mem_before_or_after hs (i := .opening c) hc (by simpa using hcb)).resolve_right fun hmem => ?_
        have := Happening.opening_le_opening_iff.1 (le_of_mem_after hs hmem)
        omega
      · -- and it does not end before the narrower one begins
        intro hmem
        have := Happening.closing_le_opening_iff.1 (le_of_mem_before hs hmem)
        omega

/-- The script nests as deep as the blocks do. -/
theorem Laminar.deepest_script {limit : Nat} :
    Depth.deepest Happening.turn 0 d.script ≤ limit ↔ d.NestsWithin limit := by
  have hlength : ∀ before b after, d.script = before ++ .opening b :: after →
      (d.frames.filter fun c => b.LiesIn c).length = Depth.depthBehind Happening.turn 0 before + 1 := by
    intro before b after hs
    rw [← (hd.perm_opening hs).length_eq, List.length_cons, length_openBehind]
  rw [Depth.deepest_le_iff]
  constructor
  · intro h b hb
    obtain ⟨before, after, hs⟩ := List.append_of_mem (d.mem_script.2 (show (Happening.opening b).Of d.known from hb))
    rw [hlength before b after hs]
    exact h before (.opening b) after hs rfl
  · intro h before i after hs hdown
    cases i with
    | opening b =>
      have hle := h b (of_script hs)
      rwa [hlength before b after hs] at hle
    | message | note | branch | closing | activate | deactivate => cases hdown

theorem Laminar.deepest_events {limit : Nat} :
    Depth.deepest Event.turn 0 d.sortedEvents ≤ limit ↔ d.NestsWithin limit := by
  rw [deepest_sortedEvents (sortedEvents_eq_script d), hd.deepest_script]

end

/-! ### Coherent diagrams -/

/-- Blocks that share no order and of which one ends inside the other if it begins there are laminar. -/
theorem Coherent.laminar (hd : d.Coherent) : d.Laminar := by
  have hforward : ∀ b ∈ d.frames, b.start < b.stop := fun b hb => (hd.joined b hb).start_lt_stop
  have horders : (d.frames.flatMap Frame.orders).Nodup :=
    hd.orders.sublist (((List.sublist_append_right _ _).trans (List.sublist_append_left _ _)))
  refine ⟨fun b hb => Int.le_of_lt (hforward b hb), ?_⟩
  refine (List.nodup_flatMap.1 horders).2.imp_of_mem ?_
  intro a b ha hb hdisjoint
  have hne : ∀ x ∈ a.orders, ∀ y ∈ b.orders, x ≠ y := by
    rintro x hx y hy rfl
    exact hdisjoint hx hy
  have hstart : a.start ≠ b.start := hne _ (by simp [Frame.orders]) _ (by simp [Frame.orders])
  have hstop : a.stop ≠ b.start := hne _ (by simp [Frame.orders]) _ (by simp [Frame.orders])
  have hstop' : a.start ≠ b.stop := hne _ (by simp [Frame.orders]) _ (by simp [Frame.orders])
  have hab := hd.nested a ha b hb
  have hba := hd.nested b hb a ha
  refine ⟨fun h => hstart (congrArg Prod.fst h), ?_⟩
  simp only [Frame.Apart, Frame.LiesIn]
  omega

end Diagram

/-! ### Blocks in the making -/

def Stretch.start (a : Stretch) : Int := a.orders.headD 0

/-- A stretch has begun at an order, and does not end before it. -/
def Stretch.Covers (a : Stretch) (x : Int) : Prop := a.start ≤ x ∧ (a.closed = true → x ≤ a.orders.getLastD 0)

instance (a : Stretch) : DecidablePred a.Covers := fun x =>
  inferInstanceAs (Decidable (a.start ≤ x ∧ (a.closed = true → x ≤ a.orders.getLastD 0)))

/-- Where one of the stretches begins, no more than `limit` of them are there. -/
def Shallow (limit : Nat) (l : List Stretch) : Prop := ∀ a ∈ l, l.countP (·.Covers a.start) ≤ limit

namespace Shallow

variable {limit : Nat} {n : Int}

/-- A stretch that begins behind all orders meets those that are not closed. -/
theorem append {l : List Stretch} (h : Shallow limit l) (hbegun : ∀ a ∈ l, a.orders ≠ [])
    (hn : ∀ a ∈ l, ∀ x ∈ a.orders, x < n) (hroom : l.countP (fun a => !a.closed) < limit) :
    Shallow limit (l ++ [{ orders := [n] }]) := by
  have hstart : ∀ a ∈ l, a.start < n := by
    intro a ha
    obtain ⟨x, r, hx⟩ := List.exists_cons_of_ne_nil (hbegun a ha)
    rw [Stretch.start, hx]
    exact hn a ha x (by simp [hx])
  intro a ha
  rw [List.countP_append, List.countP_singleton]
  rcases List.mem_append.1 ha with ha | ha
  · have hlater : ¬ (Stretch.Covers { orders := [n] } a.start) := fun hcovers => by
      have : n ≤ a.start := hcovers.1
      have := hstart a ha
      omega
    simpa [hlater] using h a ha
  · -- at `n` all closed stretches have ended
    rw [List.mem_singleton.1 ha]
    have hopen : l.countP (·.Covers n) ≤ l.countP fun a => !a.closed := by
      apply List.countP_mono_left
      intro b hb hcovers
      simp only [decide_eq_true_eq] at hcovers
      obtain ⟨x, r, hx⟩ := List.exists_cons_of_ne_nil (hbegun b hb)
      have hlast : b.orders.getLastD 0 < n := by
        refine hn b hb _ ?_
        rw [hx, List.getLastD_cons]
        exact List.getLastD_mem_cons
      cases hclosed : b.closed with
      | false => rfl
      | true =>
        have := hcovers.2 hclosed
        omega
    show l.countP (·.Covers n) + _ ≤ limit
    split <;> omega

/-- A stretch that goes on or ends behind all orders covers those that it has covered. -/
theorem grow {l r : List Stretch} {a b : Stretch} (h : Shallow limit (l ++ a :: r))
    (hbegun : ∀ c ∈ l ++ a :: r, c.orders ≠ []) (hn : ∀ c ∈ l ++ a :: r, ∀ x ∈ c.orders, x < n)
    (hopen : a.closed = false) (horders : b.orders = a.orders ++ [n]) : Shallow limit (l ++ b :: r) := by
  have hstart : b.start = a.start := by
    obtain ⟨x, s, hx⟩ := List.exists_cons_of_ne_nil (hbegun a (by simp))
    rw [Stretch.start, Stretch.start, horders, hx]
    rfl
  have hcovers : ∀ x < n, (b.Covers x ↔ a.Covers x) := by
    intro x hx
    simp only [Stretch.Covers, hstart, hopen, horders, List.getLastD_concat]
    simp
    omega
  have hbefore : ∀ c ∈ l ++ a :: r, c.start < n := by
    intro c hc
    obtain ⟨x, s, hx⟩ := List.exists_cons_of_ne_nil (hbegun c hc)
    rw [Stretch.start, hx]
    exact hn c hc x (by simp [hx])
  have hcount : ∀ x < n, (l ++ b :: r).countP (·.Covers x) = (l ++ a :: r).countP (·.Covers x) := by
    intro x hx
    simp only [List.countP_append, List.countP_cons, hcovers x hx]
  rw [Shallow, List.forall_mem_append, List.forall_mem_cons] at h
  rw [List.forall_mem_append, List.forall_mem_cons] at hbefore
  rw [Shallow, List.forall_mem_append, List.forall_mem_cons, hstart]
  refine ⟨fun c hc => ?_, ?_, fun c hc => ?_⟩
  · rw [hcount _ (hbefore.1 c hc)]
    exact h.1 c hc
  · rw [hcount _ hbefore.2.1]
    exact h.2.1
  · rw [hcount _ (hbefore.2.2 c hc)]
    exact h.2.2 c hc

end Shallow

namespace Draft

variable {limit : Nat} {d : Draft}

/-- As many blocks are open as have not ended. -/
private theorem Ordered.length_inside (h : d.Ordered) :
    d.inside.length = (d.blocks.map Block.stretch).countP fun a => !a.closed := by
  have hview : ∀ (bs : List Block) (n : Nat),
      ((bs.zipIdx n).filter fun p => p.1.stop.isNone).length = bs.countP fun b => b.stop.isNone := by
    intro bs
    induction bs with
    | nil => exact fun n => rfl
    | cons b bs ih =>
      intro n
      rw [List.zipIdx_cons, List.filter_cons, List.countP_cons, ← ih (n + 1)]
      split <;> simp [*]
  rw [h.inside, List.length_reverse, List.length_map, openBlocks, hview, List.countP_map]
  congr 1
  funext b
  show b.stop.isNone = !b.stop.isSome
  rw [Option.not_isSome]

/-- Participants that are mentioned change no blocks. -/
theorem blocks_foldl_mention (keys : List Text) (d : Draft) :
    (keys.foldl mention d).blocks = d.blocks ∧ (keys.foldl mention d).inside = d.inside := by
  induction keys generalizing d with
  | nil => exact ⟨rfl, rfl⟩
  | cons key keys ih => exact ih (d.mention key)

theorem inside_close (d : Draft) : d.close.inside = d.inside.tail := by
  unfold close
  split
  · rename_i hi
    rw [hi]
    rfl
  · rename_i hi
    rw [hi]
    rfl

/-- What a statement does to the number of open blocks. -/
private theorem length_inside_add (d : Draft) (st : Statement) :
    (d.add st).inside.length = st.turn.depth d.inside.length := by
  cases st with
  | note position keys text => exact congrArg List.length (blocks_foldl_mention keys d).2
  | branch label =>
    rw [Draft.add]
    split <;> rfl
  | closing => exact (congrArg List.length d.inside_close).trans List.length_tail
  | deactivate key =>
    rw [Draft.add]
    split <;> rfl
  | participant | message | opening | activate | faulty | skippedLine | noArrow => rfl

/-- The innermost open block goes on or ends. -/
private theorem shallow_modify (h : d.Ordered) (hs : Shallow limit (d.blocks.map Block.stretch)) {i : Nat}
    {inside : List Nat} (hi : d.inside = i :: inside) {f : Block → Block}
    (hf : ∀ b : Block, b.stop = none → (f b).stretch.orders = b.stretch.orders ++ [(d.next : Int)]) :
    Shallow limit ((d.blocks.modify i f).map Block.stretch) := by
  obtain ⟨l, b, r, hblocks, rfl, -, hopen, -, -⟩ := h.innermost hi
  have hbegun := h.blocks.begun
  have hnext : ∀ a ∈ d.blocks.map Block.stretch, ∀ x ∈ a.orders, x < d.next := fun a ha x hx =>
    h.numbered.lt (List.mem_append_left _ (List.mem_append_right _ (List.mem_flatMap.2 ⟨a, ha, hx⟩)))
  rw [hblocks, List.map_append, List.map_cons] at hs hbegun hnext
  rw [Option.isNone_iff_eq_none] at hopen
  rw [hblocks, Ordered.modify_length, List.map_append, List.map_cons]
  refine hs.grow hbegun hnext ?_ (hf b hopen)
  simp [Block.stretch, hopen]

private theorem shallow_close (h : d.Ordered) (hs : Shallow limit (d.blocks.map Block.stretch)) :
    Shallow limit (d.close.blocks.map Block.stretch) := by
  unfold Draft.close
  cases hi : d.inside with
  | nil => exact hs
  | cons i inside => exact shallow_modify h hs hi fun b hb => by simp [Block.stretch, hb]

/-- A statement for which there is room keeps a draft shallow. -/
private theorem shallow_add (h : d.Ordered) (hs : Shallow limit (d.blocks.map Block.stretch)) {st : Statement}
    (hroom : st.turn = .down → d.inside.length < limit) : Shallow limit ((d.add st).blocks.map Block.stretch) := by
  cases st with
  | note position keys text =>
    show Shallow limit ((keys.foldl mention d).blocks.map Block.stretch)
    rwa [(blocks_foldl_mention keys d).1]
  | opening kind label o =>
    have hlt := hroom rfl
    rw [h.length_inside] at hlt
    rw [Draft.add, List.map_append, List.map_singleton]
    refine hs.append h.blocks.begun (fun a ha x hx => h.numbered.lt ?_) hlt
    exact List.mem_append_left _ (List.mem_append_right _ (List.mem_flatMap.2 ⟨a, ha, hx⟩))
  | branch label =>
    rw [Draft.add]
    cases hi : d.inside with
    | nil => exact hs
    | cons i inside => exact shallow_modify h hs hi fun b hb => by simp [Block.stretch, hb]
  | closing => exact shallow_close h hs
  | deactivate key =>
    rw [Draft.add]
    split <;> exact hs
  | participant | message | activate | faulty | skippedLine | noArrow => exact hs

private theorem shallow_foldl {sts : List Statement} (h : d.Ordered) (hfit : Fitting d.openKinds sts)
    (hs : Shallow limit (d.blocks.map Block.stretch))
    (hroom : Depth.deepest Statement.turn d.inside.length sts ≤ limit) :
    Shallow limit ((sts.foldl Draft.add d).blocks.map Block.stretch) := by
  induction sts generalizing d with
  | nil => exact hs
  | cons st sts ih =>
    obtain ⟨hfits, hrest⟩ := hfit
    obtain ⟨hadd, hkinds⟩ := h.add hfits
    rw [Depth.deepest, Nat.max_le] at hroom
    refine ih hadd (hkinds ▸ hrest) (shallow_add h hs fun hdown => ?_) ?_
    · have hle := hroom.1
      rwa [if_pos hdown] at hle
    · rw [length_inside_add]
      exact hroom.2

private theorem shallow_closeAll (h : d.Ordered) (hs : Shallow limit (d.blocks.map Block.stretch)) :
    Shallow limit (d.closeAll.blocks.map Block.stretch) := by
  have hrun : ∀ (l : List Nat) {d : Draft}, d.Ordered → Shallow limit (d.blocks.map Block.stretch) →
      Shallow limit ((l.foldl (fun d _ => d.close) d).blocks.map Block.stretch) := by
    intro l
    induction l with
    | nil => exact fun _ hs => hs
    | cons i l ih => exact fun h hs => ih h.close.1 (shallow_close h hs)
  exact hrun d.inside h hs

/-- Blocks whose stretches are shallow are closed to blocks that nest within the same limit. -/
private theorem nestsWithin_toDiagram (hclosed : ∀ b ∈ d.blocks, b.Closed)
    (hs : Shallow limit (d.blocks.map Block.stretch)) : d.toDiagram.NestsWithin limit := by
  have hperm := frames_perm hclosed
  intro b hb
  obtain ⟨block, hblock, rfl⟩ := List.mem_map.1 (hperm.mem_iff.1 hb)
  -- a block in which this one lies has a stretch that covers its start
  refine Nat.le_trans ?_ (hs block.stretch (List.mem_map_of_mem hblock))
  rw [(hperm.filter _).length_eq, ← List.countP_eq_length_filter, List.countP_map, List.countP_map]
  apply List.countP_mono_left
  intro c hc hin
  simp only [Function.comp_apply, decide_eq_true_eq] at hin ⊢
  have hstart : ∀ {a : Block}, a.Closed → a.stretch.start = a.frame.start := by
    intro a ha
    rw [Stretch.start, ha.orders]
    rfl
  have hstop : c.stretch.orders.getLastD 0 = c.frame.stop := by
    rw [(hclosed c hc).orders, ← List.cons_append, List.getLastD_concat]
  have hforward := (hclosed block hblock).joined.start_lt_stop
  rw [Stretch.Covers, hstart (hclosed block hblock), hstart (hclosed c hc), hstop]
  exact ⟨hin.1, fun _ => by have := hin.2; omega⟩

end Draft

/-- The blocks of a diagram that was read nest as far as there was room for them. -/
theorem nestsWithin_of_read {stack : Stack} {s : Text} {d : Diagram} (h : (read stack s).outcome = .ok d) :
    d.NestsWithin stack.blocks := by
  obtain ⟨hroom, -, rfl⟩ := read_eq_ok_iff_statements.1 h
  have hfit := fitting_document (tokenize rule s)
  obtain ⟨hordered, hinside⟩ := Draft.ordered_ofStatements hfit
  have hempty : ({} : Draft).Ordered := Draft.ordered_empty
  have hrun := Draft.shallow_foldl hempty hfit nofun hroom
  exact Draft.nestsWithin_toDiagram (hordered.closed hinside) (Draft.shallow_closeAll (hempty.foldl hfit) hrun)

end DiagramText.Sequence

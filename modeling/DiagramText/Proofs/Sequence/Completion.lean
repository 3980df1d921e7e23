import DiagramText.Proofs.Sequence.Snapshots

/-!
# The last snapshot

After the last happening no block is open, and the snapshot of a diagram is its ranked diagram
(`toDiagram_snapshot_timeline`): the elements of one kind that begin along the timeline are those of the diagram by
order (`sortBy_timeline`), and a block is cut back into its branches.
-/

namespace DiagramText.Sequence.Diagram

variable {d : Diagram} (hd : d.Coherent)

/-! ### What begins along the timeline -/

section

variable {β : Type} {f : Happening → Option β} {l : List β} {key : β → Int}
include hd

/-- Elements that begin along the timeline come by order. -/
private theorem sortBy_timeline (hl : (d.timeline.filterMap f).Perm l)
    (hkey : ∀ {h b}, f h = some b → key b = h.order) :
    sortBy (fun a b => key a ≤ key b) l = d.timeline.filterMap f := by
  apply sortBy_eq_of_perm
  · intro a b c hab hbc
    simp only [decide_eq_true_eq] at hab hbc ⊢
    omega
  · intro a b
    simp only [decide_eq_true_eq]
    omega
  · intro a ha b hb hab hba
    obtain ⟨i, hi, hia⟩ := List.mem_filterMap.1 (hl.mem_iff.2 ha)
    obtain ⟨j, hj, hjb⟩ := List.mem_filterMap.1 (hl.mem_iff.2 hb)
    simp only [decide_eq_true_eq, hkey hia, hkey hjb] at hab hba
    have hij := eq_of_order_eq hd (mem_timeline.1 hi) (mem_timeline.1 hj) (by omega)
    rw [hij, hjb] at hia
    injection hia with hia
    exact hia.symm
  · refine (Happening.pairwise_filterMap hkey (pairwise_timeline hd)).imp ?_
    intro a b hab
    rw [decide_eq_true_eq]
    omega
  · exact hl.symm

end

private theorem filterMap_timeline {β : Type} (f : Happening → Option β) :
    (d.timeline.filterMap f).Perm (d.happenings.filterMap f) := timeline_perm.filterMap f

private theorem filterMap_happenings {β : Type} (f : Happening → Option β) : d.happenings.filterMap f =
    d.messages.filterMap (fun m => f (.message m)) ++ d.notes.filterMap (fun n => f (.note n)) ++
      d.frames.flatMap (fun b => b.happenings.filterMap f) ++
        d.activations.flatMap fun a => a.happenings.filterMap f := by
  simp only [happenings, List.filterMap_append, List.filterMap_map, List.filterMap_flatMap]
  rfl

private theorem messages_happenings : d.happenings.filterMap Happening.message? = d.messages := by
  rw [filterMap_happenings]
  simp [Frame.happenings, Activation.happenings, Happening.message?]

private theorem notes_happenings : d.happenings.filterMap Happening.note? = d.notes := by
  rw [filterMap_happenings]
  simp [Frame.happenings, Activation.happenings, Happening.note?]

private theorem activated_happenings : activated d.happenings = d.activations := by
  rw [activated, filterMap_happenings]
  simp [Frame.happenings, Activation.happenings, Happening.activation?, List.filterMap_cons,
    Function.comp_def]

theorem opened_happenings (d : Diagram) : opened d.happenings = d.frames := by
  rw [opened, filterMap_happenings]
  simp [Frame.happenings, Activation.happenings, Happening.frame?, List.filterMap_cons, Function.comp_def]

/-- Blocks of one kind by order: `view` is what the diagram holds of a block. -/
private theorem sortBy_opened {β : Type} {l : List β} {view : Frame → β} {key : β → Int} (kind : BlockKind)
    (hl : (d.frames.filter (·.kind = kind)).map view = l) (hkey : ∀ b, key (view b) = b.start) (hd : d.Coherent) :
    sortBy (fun a b => key a ≤ key b) l = ((opened d.timeline).filter (·.kind = kind)).map view := by
  have hview : ∀ hs, ((opened hs).filter (·.kind = kind)).map view =
      hs.filterMap fun h => (h.frame?.filter (·.kind = kind)).map view := by
    intro hs
    rw [opened, List.filter_filterMap, List.map_filterMap]
  rw [hview]
  apply sortBy_timeline hd
  · refine (filterMap_timeline _).trans ?_
    rw [← hview, opened_happenings, hl]
  · intro h a ha
    obtain ⟨b, hb, rfl⟩ := Option.map_eq_some_iff.1 ha
    have hopen := (Option.filter_eq_some_iff.1 hb).1
    rw [hkey, Happening.start_frame? hopen]

/-- Among the blocks of the alternatives there are no loops and no options. -/
private theorem filter_alts (d : Diagram) {kind : BlockKind} (hkind : kind ≠ .alt) :
    (d.alts.flatMap Frame.ofBranches).filter (·.kind = kind) = [] := by
  rw [List.filter_eq_nil_iff]
  intro b hb
  obtain ⟨spans, -, hb⟩ := List.mem_flatMap.1 hb
  cases spans with
  | nil => cases hb
  | cons first more =>
    rw [List.mem_singleton.1 hb, decide_eq_true_eq]
    exact Ne.symm hkind

private theorem frames_loop (d : Diagram) : (d.frames.filter (·.kind = .loop)).map Frame.first = d.loops := by
  simp [frames, List.filter_append, filter_alts d, List.filter_map, Function.comp_def]

private theorem frames_opt (d : Diagram) : (d.frames.filter (·.kind = .opt)).map Frame.first = d.opts := by
  simp [frames, List.filter_append, filter_alts d, List.filter_map, Function.comp_def]

/-- The alternatives are the blocks of those that have branches. -/
theorem frames_alt (d : Diagram) :
    (d.frames.filter (·.kind = .alt)).map Frame.branches = d.alts.filter fun spans => spans ≠ [] := by
  have halts : ∀ l : List (List Span), ((l.flatMap Frame.ofBranches).filter (·.kind = .alt)).map Frame.branches =
      l.filter fun spans => spans ≠ [] := by
    intro l
    induction l with
    | nil => rfl
    | cons spans l ih =>
      rw [List.flatMap_cons, List.filter_append, List.map_append, ih]
      cases spans <;> rfl
  simp [frames, List.filter_append, List.filter_map, Function.comp_def, halts d.alts]

/-! ### What a closed block holds -/

private theorem chain_map {l : List Span} {stop : Int} (hl : l.IsChain fun s t => s.stop = t.start)
    (hstop : ∀ s ∈ l.getLast?, s.stop = stop) :
    chain (d.rank stop) (l.map fun s => (s.label, (d.rank s.start : Int))) = l.map d.rankSpan := by
  induction l with
  | nil => rfl
  | cons s l ih =>
    cases l with
    | nil =>
      have hs : s.stop = stop := hstop s rfl
      rw [← hs]
      rfl
    | cons t l =>
      have hst : s.stop = t.start := hl.rel
      have htail := ih hl.tail (by rwa [List.getLast?_cons_cons] at hstop)
      rw [List.map_cons, chain, htail]
      simp only [List.map_cons, rankSpan, hst]
      rfl

private theorem length_timeline (d : Diagram) : d.timeline.length = d.orders.length := by
  rw [← map_order_timeline.length_eq, List.length_map]

private theorem rank_lt_timeline {i : Happening} (hi : i.Of d) : d.rank i.order < d.timeline.length := by
  rw [length_timeline]
  exact d.rank_lt_length (order_mem_orders hi)

include hd in
private theorem spans_blockAt {b : Frame} (hb : b ∈ d.frames) :
    (d.blockAt d.timeline.length b).spans = b.branches.map d.rankSpan := by
  have hbranches : b.branches.filter (fun s => d.rank s.start < d.timeline.length) = b.branches := by
    rw [List.filter_eq_self]
    intro s hs
    rw [decide_eq_true_eq]
    rcases List.mem_cons.1 hs with rfl | hs
    · exact rank_lt_timeline (i := .opening b) hb
    · exact rank_lt_timeline (i := .branch b s) ⟨hb, hs⟩
  have hstop : d.rank b.stop < d.timeline.length := rank_lt_timeline (i := .closing b) hb
  unfold Block.spans blockAt
  rw [hbranches, if_pos hstop]
  refine chain_map (hd.joined b hb).chained ?_
  intro s hs
  rw [Option.mem_def] at hs
  rw [Frame.stop, hs]
  rfl

private theorem activationAt_timeline {a : Activation Id} (ha : a ∈ d.activations) :
    d.activationAt d.timeline.length a = d.rankActivation a := by
  unfold activationAt rankActivation
  cases hs : a.stop with
  | none => rfl
  | some stop =>
    have hlt : d.rank stop < d.timeline.length := rank_lt_timeline (i := .deactivate a stop) ⟨ha, hs⟩
    rw [Option.filter_some, if_pos (by simpa using hlt)]

/-- Nothing is open behind the last happening. -/
theorem inside_snapshot_timeline : (d.snapshot d.timeline).inside = [] := by
  have hopen : d.openAt d.timeline.length (opened d.timeline) = [] := by
    rw [openAt, List.filter_eq_nil_iff]
    intro p hp
    have hb : p.1 ∈ d.frames := mem_timeline.1 (mem_opened.1 (List.fst_mem_of_mem_zipIdx hp))
    have := rank_lt_timeline (i := .closing p.1) hb
    rw [Happening.order] at this
    rw [decide_eq_true_eq]
    omega
  unfold snapshot
  rw [hopen]
  rfl

include hd

/-- The spans of the blocks of one kind. -/
private theorem filter_blocks (kind : BlockKind) :
    ((d.snapshot d.timeline).blocks.filter (·.kind = kind)).map Block.spans =
      (((opened d.timeline).filter (·.kind = kind)).map Frame.branches).map fun spans => spans.map d.rankSpan := by
  have hkind : ∀ b, (d.blockAt d.timeline.length b).kind = b.kind := fun _ => rfl
  unfold snapshot
  rw [List.filter_map, List.map_map, List.map_map]
  simp only [Function.comp_def, hkind]
  apply List.map_congr_left
  intro b hb
  exact spans_blockAt hd (mem_timeline.1 (mem_opened.1 (List.mem_filter.1 hb).1))

/-- Blocks that have one branch each. -/
private theorem flatMap_blocks {kind : BlockKind} (hkind : kind ≠ .alt) :
    ((d.snapshot d.timeline).blocks.filter (·.kind = kind)).flatMap Block.spans =
      (((opened d.timeline).filter (·.kind = kind)).map Frame.first).map d.rankSpan := by
  rw [List.flatMap_def, filter_blocks hd, ← List.map_flatten, ← List.flatMap_def]
  congr 1
  rw [← List.flatMap_pure_eq_map]
  apply List.flatMap_congr
  intro b hb
  obtain ⟨hopen, hk⟩ := List.mem_filter.1 hb
  have hmore : b.more = [] := by
    refine Decidable.byContradiction fun hne => hkind ?_
    rw [← kind_of_more (mem_timeline.1 (mem_opened.1 hopen)) hne, eq_comm]
    simpa using hk
  rw [Frame.branches, hmore]
  rfl

/-- The last snapshot is the ranked diagram. -/
theorem toDiagram_snapshot_timeline : (d.snapshot d.timeline).toDiagram = d.ranked := by
  have hparticipants : d.declared.map Prod.snd = d.sortedParticipants.mapIdx Participant.rank := by
    apply List.ext_getElem?
    intro i
    rw [declared, declare, List.getElem?_map, List.getElem?_mapIdx, List.getElem?_mapIdx, Option.map_map]
    rfl
  have hmessages : d.timeline.filterMap Happening.message? = d.sortedMessages := by
    refine (sortBy_timeline hd ?_ Happening.order_message?).symm
    exact messages_happenings ▸ filterMap_timeline _
  have hnotes : d.timeline.filterMap Happening.note? = sortBy (fun a b => a.order ≤ b.order) d.notes := by
    refine (sortBy_timeline hd ?_ Happening.order_note?).symm
    exact notes_happenings ▸ filterMap_timeline _
  have hactivations : activated d.timeline = sortBy (fun a b => a.start ≤ b.start) d.activations := by
    refine (sortBy_timeline hd ?_ Happening.start_activation?).symm
    exact activated_happenings ▸ filterMap_timeline _
  have hactive : (activated d.timeline).map (d.activationAt d.timeline.length) =
      (activated d.timeline).map d.rankActivation := by
    apply List.map_congr_left
    intro a ha
    exact activationAt_timeline (mem_timeline.1 (mem_activated.1 ha))
  have hloops := sortBy_opened .loop (frames_loop d) (fun _ => rfl) hd
  have hopts := sortBy_opened .opt (frames_opt d) (fun _ => rfl) hd
  have hstart : ∀ b : Frame, ranked.altStart b.branches = b.start := fun _ => rfl
  have hbranches : d.alts.filter (fun spans => spans ≠ []) = d.alts := by
    rw [List.filter_eq_self]
    intro spans hspans
    rw [decide_eq_true_eq]
    rintro rfl
    exact hd.alts hspans
  have halts := sortBy_opened .alt ((frames_alt d).trans hbranches) hstart hd
  unfold Draft.toDiagram ranked
  rw [flatMap_blocks hd (by decide), flatMap_blocks hd (by decide), filter_blocks hd, hloops, hopts, halts,
    ← hactivations, ← hactive, ← hmessages, ← hnotes]
  rw [show (d.snapshot d.timeline).participants.map Prod.snd = _ from hparticipants]
  rfl

end DiagramText.Sequence.Diagram

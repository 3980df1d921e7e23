import DiagramText.Proofs.Sequence.Happenings
import DiagramText.Proofs.Sequence.Lines

/-!
# Snapshots of a diagram

When the lines of the first happenings have been read, the draft is the `snapshot` of the diagram at that place: it
holds what has begun, and of that the ends and branches that have come.  What a happening is not about stays as it is
(`blocks_succ`, `activations_succ`, `openAt_succ`), and of what begins nothing more is known (`blockAt_opening`,
`activationAt_activate`).
-/

namespace DiagramText.Sequence

/-- Participants as a text declares them. -/
def declare (ps : List Participant) : Keyed Text Participant := ps.mapIdx fun i p => (p.key, p.rank i)

theorem keys_declare (ps : List Participant) : (declare ps).keys = ps.map Participant.key := by
  unfold declare Keyed.keys
  apply Keyed.map_mapIdx
  exact fun _ _ => rfl

/-- The blocks that have been opened. -/
def opened (hs : List Happening) : List Frame := hs.filterMap Happening.frame?

/-- The activations that have begun. -/
def activated (hs : List Happening) : List (Activation Id) := hs.filterMap Happening.activation?

theorem mem_opened {hs : List Happening} {b : Frame} : b ∈ opened hs ↔ .opening b ∈ hs := by
  rw [opened, List.mem_filterMap]
  constructor
  · rintro ⟨i, hi, hib⟩
    cases i <;> cases hib
    exact hi
  · exact fun hb => ⟨_, hb, rfl⟩

theorem mem_activated {hs : List Happening} {a : Activation Id} : a ∈ activated hs ↔ .activate a ∈ hs := by
  rw [activated, List.mem_filterMap]
  constructor
  · rintro ⟨i, hi, hia⟩
    cases i <;> cases hia
    exact hi
  · exact fun ha => ⟨_, ha, rfl⟩

namespace Diagram

section

variable (d : Diagram)

/-- All participants as a text declares them. -/
def declared : Keyed Text Participant := declare d.sortedParticipants

/-- An activation of which the first `n` happenings are known. -/
def activationAt (n : Nat) (a : Activation Id) : Activation Id where
  participant := d.newId a.participant
  start := d.rank a.start
  stop := (a.stop.filter fun stop => d.rank stop < n).map fun stop => d.rank stop

/-- A block of which the first `n` happenings are known. -/
def blockAt (n : Nat) (b : Frame) : Block where
  kind := b.kind
  branches := (b.branches.filter fun s => d.rank s.start < n).map fun s => (s.label, d.rank s.start)
  stop := if d.rank b.stop < n then some (d.rank b.stop) else none

/-- The blocks that are still open after `n` happenings, with their places. -/
def openAt (n : Nat) (bs : List Frame) : List (Frame × Nat) := bs.zipIdx.filter fun p => n ≤ d.rank p.1.stop

/-- The draft in which the first happenings have been read. -/
def snapshot (before : List Happening) : Draft where
  participants := d.declared
  messages := (before.filterMap Happening.message?).map d.rankMessage
  notes := (before.filterMap Happening.note?).map d.rankNote
  activations := (activated before).map (d.activationAt before.length)
  blocks := (opened before).map (d.blockAt before.length)
  inside := ((d.openAt before.length (opened before)).map Prod.snd).reverse
  next := before.length

/-- The kinds of the blocks that are open after the first happenings, the innermost first. -/
def insideAt (before : List Happening) : List BlockKind :=
  ((d.openAt before.length (opened before)).map fun p => p.1.kind).reverse

end

variable {d : Diagram}

/-! ### Participants -/

private theorem idxOf_map {β : Type} [BEq β] [LawfulBEq β] {f : Participant → β} (h : (d.participants.map f).Nodup)
    {i : Nat} (hi : i < d.sortedParticipants.length) :
    (d.sortedParticipants.map f).idxOf (f d.sortedParticipants[i]) = i := by
  have hnodup : (d.sortedParticipants.map f).Nodup := ((sortBy_perm _ d.participants).map f).nodup_iff.2 h
  have hlen : i < (d.sortedParticipants.map f).length := by
    rw [List.length_map]
    exact hi
  have := hnodup.idxOf_getElem i hlen
  rwa [List.getElem_map] at this

section

variable (hd : d.Coherent)
include hd

variable {D : Draft} (hD : D.participants = d.declared)
include hD

/-- A participant keeps its number. -/
theorem id_keyOf (hkeys : (d.participants.map Participant.key).Nodup) {id : Id}
    (h : id ∈ d.participants.map Participant.id) : D.id (d.keyOf id) = d.newId id := by
  obtain ⟨p, hp, rfl⟩ := List.mem_map.1 h
  obtain ⟨i, hi, rfl⟩ := List.getElem_of_mem (mem_sortedParticipants.2 hp)
  rw [Draft.id, hD, declared, keys_declare, keyOf_id hd hp, idxOf_map hkeys hi, newId, idxOf_map hd.ids hi]

/-- A participant who has been declared is not new. -/
theorem mention_keyOf {id : Id} (h : id ∈ d.participants.map Participant.id) : D.mention (d.keyOf id) = D := by
  obtain ⟨p, hp, rfl⟩ := List.mem_map.1 h
  have hkey : p.key ∈ D.participants.keys := by
    rw [hD, declared, keys_declare]
    exact List.mem_map_of_mem (mem_sortedParticipants.2 hp)
  obtain ⟨q, hq⟩ := Keyed.mem_keys_iff.1 hkey
  rw [keyOf_id hd hp, Draft.mention, Draft.update]
  show { D with participants := _ } = D
  rw [Keyed.upsert_of_get? hq rfl]

theorem foldl_mention {ids : List Id} (h : ids ⊆ d.participants.map Participant.id) :
    (ids.map d.keyOf).foldl Draft.mention D = D := by
  induction ids with
  | nil => rfl
  | cons id ids ih =>
    rw [List.cons_subset] at h
    rw [List.map_cons, List.foldl_cons, mention_keyOf hd hD h.1, ih h.2]

end

/-! ### Before and after a happening -/

section

variable {before after : List Happening} {h : Happening} (ht : d.timeline = before ++ h :: after)
include ht

theorem of_next : h.Of d := mem_timeline.1 (by rw [ht]; exact List.mem_append_right _ List.mem_cons_self)

theorem of_before {i : Happening} (hi : i ∈ before) : i.Of d :=
  mem_timeline.1 (by rw [ht]; exact List.mem_append_left _ hi)

variable (hd : d.Coherent)
include hd

theorem pairwise_before : before.Pairwise fun a b => a.order < b.order := by
  have hsorted := pairwise_timeline hd
  rw [ht, List.pairwise_append] at hsorted
  exact hsorted.1

theorem mem_before_iff {i : Happening} (hi : i.Of d) : i ∈ before ↔ i.order < h.order := by
  have hsorted := pairwise_timeline hd
  have hmem := mem_timeline.2 hi
  rw [ht, List.pairwise_append, List.pairwise_cons] at hsorted
  rw [ht, List.mem_append, List.mem_cons] at hmem
  constructor
  · exact fun hb => hsorted.2.2 i hb h List.mem_cons_self
  · intro hlt
    rcases hmem with hb | rfl | ha
    · exact hb
    · omega
    · have := hsorted.2.1.1 i ha
      omega

theorem not_mem_before : h ∉ before := by
  intro hb
  have := (mem_before_iff ht hd (of_next ht)).1 hb
  omega

/-- What has a rank before the place of a happening comes before it. -/
theorem rank_lt_iff {i : Happening} (hi : i.Of d) : d.rank i.order < before.length ↔ i.order < h.order := by
  rw [← rank_eq_length hd ht]
  exact d.rank_lt_rank_iff (order_mem_orders hi)

/-- A happening changes nothing about when the others have come. -/
theorem rank_lt_succ_iff {i : Happening} (hi : i.Of d) (hne : i ≠ h) :
    d.rank i.order < before.length + 1 ↔ d.rank i.order < before.length := by
  have hh := of_next ht
  have hrank := rank_eq_length hd ht
  have horder : i.order ≠ h.order := fun e => hne (eq_of_order_eq hd hi hh e)
  have hlt := d.rank_lt_rank_iff (y := h.order) (order_mem_orders hi)
  have hgt := d.rank_lt_rank_iff (y := i.order) (order_mem_orders hh)
  omega

/-! ### What does not change -/

theorem activationAt_succ {a : Activation Id} (ha : a ∈ d.activations) (hne : ∀ stop, .deactivate a stop ≠ h) :
    d.activationAt (before.length + 1) a = d.activationAt before.length a := by
  unfold activationAt
  cases hs : a.stop with
  | none => rfl
  | some stop =>
    have hiff := rank_lt_succ_iff ht hd (i := .deactivate a stop) ⟨ha, hs⟩ (hne stop)
    simp only [Option.filter_some, decide_eq_true_eq]
    simp only [Happening.order] at hiff
    simp only [hiff]

theorem branches_succ {b : Frame} (hb : b ∈ d.frames) (hopen : .opening b ∈ before)
    (hne : ∀ s, .branch b s ≠ h) :
    b.branches.filter (fun s => d.rank s.start < before.length + 1) =
      b.branches.filter fun s => d.rank s.start < before.length := by
  apply List.filter_congr
  intro s hs
  rw [decide_eq_decide]
  rcases List.mem_cons.1 hs with rfl | hs
  · refine rank_lt_succ_iff ht hd (i := .opening b) hb ?_
    rintro rfl
    exact not_mem_before ht hd hopen
  · exact rank_lt_succ_iff ht hd (i := .branch b s) ⟨hb, hs⟩ (hne s)

theorem stop_succ {b : Frame} (hb : b ∈ d.frames) (hne : .closing b ≠ h) :
    d.rank b.stop < before.length + 1 ↔ d.rank b.stop < before.length :=
  rank_lt_succ_iff ht hd (i := .closing b) hb hne

theorem blockAt_succ {b : Frame} (hb : b ∈ d.frames) (hopen : .opening b ∈ before)
    (hbranch : ∀ s, .branch b s ≠ h) (hclose : .closing b ≠ h) :
    d.blockAt (before.length + 1) b = d.blockAt before.length b := by
  unfold blockAt
  rw [branches_succ ht hd hb hopen hbranch]
  simp only [stop_succ ht hd hb hclose]

theorem blocks_succ (hbranch : ∀ b s, .branch b s ≠ h) (hclose : ∀ b, .closing b ≠ h) :
    (opened before).map (d.blockAt (before.length + 1)) = (opened before).map (d.blockAt before.length) := by
  apply List.map_congr_left
  intro b hb
  have hopen := mem_opened.1 hb
  exact blockAt_succ ht hd (of_before ht hopen) hopen (hbranch b) (hclose b)

theorem activations_succ (hne : ∀ a stop, .deactivate a stop ≠ h) :
    (activated before).map (d.activationAt (before.length + 1)) =
      (activated before).map (d.activationAt before.length) := by
  apply List.map_congr_left
  intro a ha
  exact activationAt_succ ht hd (of_before ht (mem_activated.1 ha)) (hne a)

theorem openAt_succ {bs : List Frame} (hbs : bs ⊆ d.frames) (hclose : ∀ b ∈ bs, .closing b ≠ h) :
    d.openAt (before.length + 1) bs = d.openAt before.length bs := by
  apply List.filter_congr
  intro p hp
  have hmem : p.1 ∈ bs := List.fst_mem_of_mem_zipIdx hp
  have hiff := stop_succ ht hd (hbs hmem) (hclose p.1 hmem)
  rw [decide_eq_decide]
  omega

omit hd in
theorem opened_subset : opened before ⊆ d.frames := fun _ hb => of_before ht (mem_opened.1 hb)

/-! ### What begins -/

private theorem not_rank_lt_succ {x : Int} (hx : h.order < x) : ¬ d.rank x < before.length + 1 := by
  have hrank := rank_eq_length hd ht
  have := (d.rank_lt_rank_iff (order_mem_orders (of_next ht))).2 hx
  omega

/-- Of a block that opens only the first branch is known. -/
theorem blockAt_opening {b : Frame} (hh : h = .opening b) :
    ¬ d.rank b.stop < before.length + 1 ∧
      d.blockAt (before.length + 1) b = ⟨b.kind, [(b.first.label, (before.length : Int))], none⟩ := by
  subst hh
  have hb : b ∈ d.frames := of_next ht
  have hrank : d.rank b.first.start = before.length := rank_eq_length hd ht
  have hjoined := hd.joined b hb
  have hstop : ¬ d.rank b.stop < before.length + 1 :=
    not_rank_lt_succ ht hd hjoined.start_lt_stop
  have hmore : b.more.filter (fun s => d.rank s.start < before.length + 1) = [] := by
    rw [List.filter_eq_nil_iff]
    intro s hs
    rw [decide_eq_true_eq]
    exact not_rank_lt_succ ht hd (hjoined.start_lt hs)
  refine ⟨hstop, ?_⟩
  unfold blockAt
  rw [if_neg hstop, Frame.branches, List.filter_cons, hrank, if_pos (by simp), hmore, List.map_singleton, hrank]

/-- Of an activation that begins no end is known. -/
theorem activationAt_activate {a : Activation Id} (hh : h = .activate a) :
    d.activationAt (before.length + 1) a = ⟨d.newId a.participant, before.length, none⟩ := by
  subst hh
  have ha : a ∈ d.activations := of_next ht
  have hrank : d.rank a.start = before.length := rank_eq_length hd ht
  unfold activationAt
  rw [hrank]
  cases hs : a.stop with
  | none => rfl
  | some stop =>
    have hlater : ¬ d.rank stop < before.length + 1 := not_rank_lt_succ ht hd (hd.forward a ha stop hs)
    rw [Option.filter_some, if_neg (by simpa using hlater)]
    rfl

end

/-- The snapshot behind a happening, part by part. -/
theorem snapshot_append (d : Diagram) (before : List Happening) (h : Happening) : d.snapshot (before ++ [h]) =
    { participants := d.declared
      messages := (before.filterMap Happening.message?).map d.rankMessage ++ h.message?.toList.map d.rankMessage
      notes := (before.filterMap Happening.note?).map d.rankNote ++ h.note?.toList.map d.rankNote
      activations := (activated before).map (d.activationAt (before.length + 1)) ++
        h.activation?.toList.map (d.activationAt (before.length + 1))
      blocks := (opened before).map (d.blockAt (before.length + 1)) ++
        h.frame?.toList.map (d.blockAt (before.length + 1))
      inside := ((d.openAt (before.length + 1) (opened before ++ h.frame?.toList)).map Prod.snd).reverse
      next := before.length + 1 } := by
  have hone : ∀ {β : Type} (f : Happening → Option β), [h].filterMap f = (f h).toList := by
    intro β f
    cases hf : f h <;> simp [hf]
  simp only [snapshot, opened, activated, List.filterMap_append, hone, List.map_append, List.length_append,
    List.length_singleton]

end Diagram

end DiagramText.Sequence

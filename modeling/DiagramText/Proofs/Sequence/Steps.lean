import DiagramText.Proofs.Sequence.Snapshots

/-!
# From snapshot to snapshot

The line of a happening takes the snapshot before it to the one behind it (`add_snapshot`), and it fits the blocks that
are open there (`fits_insideAt`).  The open blocks are a stack because blocks are nested: the one that closes or goes on
is the innermost one (`closing_innermost`, `branch_innermost`).  Of the activations of a participant the one that ends
is the last that is open (`closeLast_activated`).
-/

namespace DiagramText.Sequence

/-! ### Lists -/

/-- A view that one element changes. -/
theorem map_eq_modify {α β : Type} {f g : α → β} {k : β → β} {l r : List α} {a : α}
    (h : ∀ x ∈ l ++ r, g x = f x) (ha : g a = k (f a)) :
    (l ++ a :: r).map g = ((l ++ a :: r).map f).modify l.length k := by
  induction l with
  | nil =>
    have hr : r.map g = r.map f := List.map_congr_left h
    rw [List.nil_append, List.map_cons, List.map_cons, List.length_nil, List.modify_zero_cons, ha, hr]
  | cons x l ih =>
    rw [List.cons_append, List.map_cons, List.map_cons, List.length_cons, List.modify_succ_cons,
      ih fun y hy => h y (List.mem_cons_of_mem x hy), h x List.mem_cons_self]

/-- Where an element stands in a list that is in order. -/
private theorem exists_split {α : Type} {start : α → Int} {l : List α} {a : α}
    (hl : l.Pairwise fun b c => start b < start c) (ha : a ∈ l) :
    ∃ l₁ l₂, l = l₁ ++ a :: l₂ ∧ (∀ c ∈ l₁ ++ l₂, c ∈ l ∧ c ≠ a) ∧ (∀ c ∈ l₁, start c < start a) ∧
      ∀ c ∈ l₂, start a < start c := by
  obtain ⟨l₁, l₂, rfl⟩ := List.append_of_mem ha
  rw [List.pairwise_append, List.pairwise_cons] at hl
  obtain ⟨-, ⟨hafter, -⟩, hbefore⟩ := hl
  refine ⟨l₁, l₂, rfl, ?_, fun c hc => hbefore c hc a List.mem_cons_self, hafter⟩
  intro c hc
  rw [List.mem_append] at hc
  rw [List.mem_append, List.mem_cons]
  refine ⟨hc.imp_right Or.inr, ?_⟩
  rintro rfl
  rcases hc with hc | hc
  · exact Int.lt_irrefl _ (hbefore c hc c List.mem_cons_self)
  · exact Int.lt_irrefl _ (hafter c hc)

private theorem filter_start_le {l : List Span} (hl : l.Pairwise fun s t => s.start < t.start) {s : Span} (hs : s ∈ l) :
    l.filter (fun t => t.start ≤ s.start) = l.filter (fun t => t.start < s.start) ++ [s] := by
  obtain ⟨l₁, l₂, rfl, -, hbefore, hafter⟩ := exists_split hl hs
  have hlt : l₁.filter (fun t => t.start < s.start) = l₁ :=
    List.filter_eq_self.2 fun t ht => decide_eq_true (hbefore t ht)
  have hle : l₁.filter (fun t => t.start ≤ s.start) = l₁ :=
    List.filter_eq_self.2 fun t ht => decide_eq_true (Int.le_of_lt (hbefore t ht))
  have hnlt : l₂.filter (fun t => t.start < s.start) = [] :=
    List.filter_eq_nil_iff.2 fun t ht => by simpa using Int.le_of_lt (hafter t ht)
  have hnle : l₂.filter (fun t => t.start ≤ s.start) = [] :=
    List.filter_eq_nil_iff.2 fun t ht => by simpa using hafter t ht
  simp [List.filter_append, hlt, hle, hnlt, hnle]

/-- The activation that ends is the last one of the participant that is open. -/
private theorem closeLast_append {l r : List (Activation Id)} {a : Activation Id} (stop : Int) (ha : a.stop = none)
    (hr : ∀ c ∈ r, c.participant = a.participant → c.stop ≠ none) :
    closeLast a.participant stop (l ++ a :: r) = some (l ++ { a with stop := some stop } :: r) := by
  have hnone : closeLast a.participant stop r = none := by
    induction r with
    | nil => rfl
    | cons c r ih =>
      have hc : ¬ (c.participant = a.participant ∧ c.stop = none) := fun hc => hr c (by simp) hc.1 hc.2
      rw [closeLast, ih fun x hx => hr x (by simp [hx])]
      simp only [hc, if_false]
  induction l with
  | nil => simp [closeLast, hnone, ha]
  | cons c l ih =>
    rw [List.cons_append, closeLast, ih]
    rfl

namespace Diagram

variable {d : Diagram}

/-- If all later blocks are closed, a block that is not is the innermost one. -/
private theorem openAt_split {n : Nat} {outer inner : List Frame} {b : Frame}
    (hinner : ∀ c ∈ inner, d.rank c.stop < n) :
    d.openAt n (outer ++ b :: inner) =
      d.openAt n outer ++ if n ≤ d.rank b.stop then [(b, outer.length)] else [] := by
  have hnil : (inner.zipIdx (outer.length + 1)).filter (fun p => n ≤ d.rank p.1.stop) = [] := by
    rw [List.filter_eq_nil_iff]
    intro p hp
    have := hinner p.1 (List.fst_mem_of_mem_zipIdx hp)
    rw [decide_eq_true_eq]
    omega
  unfold openAt
  rw [List.zipIdx_append, List.filter_append, Nat.zero_add, List.zipIdx_cons, List.filter_cons, hnil]
  simp only [decide_eq_true_eq]

section

variable {before after : List Happening} {h : Happening} (ht : d.timeline = before ++ h :: after) (hd : d.Coherent)
include ht hd

/-! ### The innermost block -/

/-- The blocks that have been opened before and after a block. -/
private theorem opened_split {b : Frame} (hb : b ∈ d.frames) (hlt : b.start < h.order) :
    ∃ outer inner, opened before = outer ++ b :: inner ∧
      (∀ c ∈ outer ++ inner, c ∈ d.frames ∧ .opening c ∈ before ∧ c ≠ b) ∧
        ∀ c ∈ inner, b.start < c.start ∧ c.start < h.order := by
  have hmem : b ∈ opened before := mem_opened.2 ((mem_before_iff ht hd (i := .opening b) hb).2 hlt)
  have hsorted : (opened before).Pairwise fun b c => b.start < c.start :=
    Happening.pairwise_filterMap Happening.start_frame? (pairwise_before ht hd)
  obtain ⟨outer, inner, hsplit, hother, -, hinner⟩ := exists_split hsorted hmem
  refine ⟨outer, inner, hsplit, ?_, ?_⟩
  · intro c hc
    have hopen := mem_opened.1 (hother c hc).1
    exact ⟨of_before ht hopen, hopen, (hother c hc).2⟩
  · intro c hc
    have hopen := mem_opened.1 (hother c (List.mem_append_right outer hc)).1
    exact ⟨hinner c hc, (mem_before_iff ht hd (of_before ht hopen)).1 hopen⟩

/-- A block that closes is the innermost one. -/
private theorem closing_innermost {b : Frame} (hh : h = .closing b) : ∃ (around : List (Frame × Nat)) (i : Nat),
    d.openAt before.length (opened before) = around ++ [(b, i)] ∧
      d.openAt (before.length + 1) (opened before) = around ∧
        (opened before).map (d.blockAt (before.length + 1)) =
          ((opened before).map (d.blockAt before.length)).modify i fun c =>
            { c with stop := some (before.length : Int) } := by
  subst hh
  have hb : b ∈ d.frames := of_next ht
  have hlt : b.start < b.stop := (hd.joined b hb).start_lt_stop
  obtain ⟨outer, inner, hsplit, hother, hinner⟩ := opened_split ht hd hb hlt
  have hopenb : .opening b ∈ before := (mem_before_iff ht hd (i := .opening b) hb).2 hlt
  have hrank : d.rank b.stop = before.length := rank_eq_length hd ht
  have hclosed : ∀ c ∈ inner, d.rank c.stop < before.length := by
    intro c hc
    have hcd := (hother c (List.mem_append_right outer hc)).1
    exact (rank_lt_iff ht hd (i := .closing c) hcd).2 (hd.nested b hb c hcd (hinner c hc).1 (hinner c hc).2)
  have hne : ∀ c ∈ outer ++ inner, Happening.closing c ≠ .closing b := by
    intro c hc he
    injection he with he
    exact (hother c hc).2.2 he
  refine ⟨d.openAt before.length outer, outer.length, ?_, ?_, ?_⟩
  · rw [hsplit, openAt_split hclosed, if_pos (by omega)]
  · rw [hsplit, openAt_split (fun c hc => Nat.lt_succ_of_lt (hclosed c hc)), if_neg (by omega), List.append_nil]
    apply openAt_succ ht hd fun c hc => (hother c (List.mem_append_left inner hc)).1
    exact fun c hc => hne c (List.mem_append_left inner hc)
  · rw [hsplit]
    apply map_eq_modify
    · intro c hc
      exact blockAt_succ ht hd (hother c hc).1 (hother c hc).2.1 (fun _ he => Happening.noConfusion he) (hne c hc)
    · unfold blockAt
      rw [branches_succ ht hd hb hopenb (fun _ he => Happening.noConfusion he), hrank]
      simp

omit h ht in
/-- The branches of a block up to the one that begins now. -/
private theorem branches_branch {b : Frame} {s : Span} (ht : d.timeline = before ++ .branch b s :: after)
    (hb : b ∈ d.frames) (hs : s ∈ b.more) :
    (b.branches.filter fun t => d.rank t.start < before.length + 1).map (fun t => (t.label, (d.rank t.start : Int))) =
      (b.branches.filter fun t => d.rank t.start < before.length).map (fun t => (t.label, (d.rank t.start : Int))) ++
        [(s.label, (before.length : Int))] := by
  have hrank : d.rank s.start = before.length := rank_eq_length hd ht
  have hsb : s ∈ b.branches := List.mem_cons_of_mem _ hs
  have hstarts : ∀ t ∈ b.branches, t.start ∈ d.orders := by
    intro t hmem
    rcases List.mem_cons.1 hmem with rfl | hmem
    · exact order_mem_orders (h := .opening b) hb
    · exact order_mem_orders (h := .branch b t) ⟨hb, hmem⟩
  have hlt : b.branches.filter (fun t => d.rank t.start < before.length) =
      b.branches.filter fun t => t.start < s.start := by
    apply List.filter_congr
    intro t hmem
    rw [decide_eq_decide, ← hrank, d.rank_lt_rank_iff (hstarts t hmem)]
  have hle : b.branches.filter (fun t => d.rank t.start < before.length + 1) =
      b.branches.filter fun t => t.start ≤ s.start := by
    apply List.filter_congr
    intro t hmem
    have hiff := d.rank_lt_rank_iff (y := t.start) (hstarts s hsb)
    rw [decide_eq_decide]
    omega
  rw [hle, hlt, filter_start_le (hd.joined b hb).pairwise hsb, List.map_append, List.map_singleton, hrank]

/-- A block that goes on with another branch is the innermost one. -/
private theorem branch_innermost {b : Frame} {s : Span} (hh : h = .branch b s) :
    ∃ (around : List (Frame × Nat)) (i : Nat),
    d.openAt before.length (opened before) = around ++ [(b, i)] ∧
      (opened before).map (d.blockAt (before.length + 1)) =
        ((opened before).map (d.blockAt before.length)).modify i fun c =>
          { c with branches := c.branches ++ [(s.label, (before.length : Int))] } := by
  subst hh
  obtain ⟨hb, hs⟩ : b ∈ d.frames ∧ s ∈ b.more := of_next ht
  have hjoined := hd.joined b hb
  have hlt : s.start < b.stop := hjoined.lt_stop (List.mem_cons_of_mem _ hs)
  obtain ⟨outer, inner, hsplit, hother, hinner⟩ := opened_split ht hd hb (hjoined.start_lt hs)
  have hrank : d.rank s.start = before.length := rank_eq_length hd ht
  have hopen : ¬ d.rank b.stop < before.length := by
    intro hstop
    have : b.stop < s.start := (rank_lt_iff ht hd (i := .closing b) hb).1 hstop
    omega
  have hclosed : ∀ c ∈ inner, d.rank c.stop < before.length := by
    intro c hc
    have hcd := (hother c (List.mem_append_right outer hc)).1
    obtain ⟨hbc, hcs⟩ : b.start < c.start ∧ c.start < s.start := hinner c hc
    have hnested := hd.nested b hb c hcd hbc (by omega)
    have hstop : c.stop < s.start := by
      rcases hd.outside b hb c hcd hbc hnested s hs with hlt | hlt
      · omega
      · exact hlt
    exact (rank_lt_iff ht hd (i := .closing c) hcd).2 hstop
  refine ⟨d.openAt before.length outer, outer.length, ?_, ?_⟩
  · rw [hsplit, openAt_split hclosed, if_pos (by omega)]
  · rw [hsplit]
    apply map_eq_modify
    · intro c hc
      refine blockAt_succ ht hd (hother c hc).1 (hother c hc).2.1 ?_ (fun he => Happening.noConfusion he)
      intro t he
      injection he with he
      exact (hother c hc).2.2 he
    · unfold blockAt
      rw [branches_branch hd ht hb hs]
      simp only [stop_succ ht hd hb (show Happening.closing b ≠ .branch b s from fun he => Happening.noConfusion he)]

/-! ### Active participants -/

/-- Behind an activation that ends, the others of its participant have ended. -/
private theorem stop_later {a c : Activation Id} {stop : Int} (hh : h = .deactivate a stop) (hc : .activate c ∈ before)
    (hlater : a.start < c.start) (hsame : d.newId c.participant = d.newId a.participant) :
    (d.activationAt before.length c).stop ≠ none := by
  subst hh
  obtain ⟨ha, hstop⟩ : a ∈ d.activations ∧ stop ∈ a.stop := of_next ht
  have hcd : c ∈ d.activations := of_before ht hc
  have hpart : a.participant = c.participant := newId_inj (hd.activation_participant a ha) hsame.symm
  have hlt : c.start < stop := (mem_before_iff ht hd (i := .activate c) hcd).1 hc
  obtain ⟨t, htc, hts⟩ := hd.active a ha c hcd hpart hlater stop hstop hlt
  have hranked : d.rank t < before.length := (rank_lt_iff ht hd (i := .deactivate c t) ⟨hcd, htc⟩).2 hts
  rw [Option.mem_def] at htc
  simp [activationAt, htc, hranked]

private theorem closeLast_activated {a : Activation Id} {stop : Int} (hh : h = .deactivate a stop) :
    closeLast (d.newId a.participant) before.length ((activated before).map (d.activationAt before.length)) =
      some ((activated before).map (d.activationAt (before.length + 1))) := by
  subst hh
  obtain ⟨ha, hstop⟩ : a ∈ d.activations ∧ stop ∈ a.stop := of_next ht
  have hmem : a ∈ activated before :=
    mem_activated.2 ((mem_before_iff ht hd (i := .activate a) ha).2 (hd.forward a ha stop hstop))
  have hsorted : (activated before).Pairwise fun b c => b.start < c.start :=
    Happening.pairwise_filterMap Happening.start_activation? (pairwise_before ht hd)
  obtain ⟨earlier, later, hsplit, hother, -, hlater⟩ := exists_split hsorted hmem
  have hsame : ∀ c ∈ earlier ++ later, d.activationAt (before.length + 1) c = d.activationAt before.length c := by
    intro c hc
    refine activationAt_succ ht hd (of_before ht (mem_activated.1 (hother c hc).1)) fun t he => ?_
    injection he with he
    exact (hother c hc).2 he
  have hclosed : ∀ c ∈ later.map (d.activationAt before.length),
      c.participant = (d.activationAt before.length a).participant → c.stop ≠ none := by
    rw [List.forall_mem_map]
    intro c hc
    exact stop_later ht hd rfl (mem_activated.1 (hother c (List.mem_append_right earlier hc)).1) (hlater c hc)
  have hrank : d.rank stop = before.length := rank_eq_length hd ht
  rw [Option.mem_def] at hstop
  have hopen : (d.activationAt before.length a).stop = none := by simp [activationAt, hstop, hrank]
  have hends : d.activationAt (before.length + 1) a =
      { d.activationAt before.length a with stop := some (before.length : Int) } := by
    simp [activationAt, hstop, hrank]
  have hkept : ∀ l ⊆ earlier ++ later,
      l.map (d.activationAt (before.length + 1)) = l.map (d.activationAt before.length) :=
    fun l hl => List.map_congr_left fun c hc => hsame c (hl hc)
  rw [hsplit, List.map_append, List.map_cons, List.map_append, List.map_cons,
    hkept earlier (List.subset_append_left _ _), hkept later (List.subset_append_right _ _), hends]
  exact closeLast_append (before.length : Int) hopen hclosed

/-! ### One more happening -/

private theorem snapshot_leaf (hbranch : ∀ b s, .branch b s ≠ h) (hclose : ∀ b, .closing b ≠ h)
    (hstop : ∀ a stop, .deactivate a stop ≠ h) (hopen : h.frame? = none) : d.snapshot (before ++ [h]) =
    { d.snapshot before with
      messages := (d.snapshot before).messages ++ h.message?.toList.map d.rankMessage
      notes := (d.snapshot before).notes ++ h.note?.toList.map d.rankNote
      activations := (d.snapshot before).activations ++ h.activation?.toList.map (d.activationAt (before.length + 1))
      next := before.length + 1 } := by
  rw [snapshot_append, hopen, blocks_succ ht hd hbranch hclose, activations_succ ht hd hstop]
  simp only [Option.toList_none, List.map_nil, List.append_nil,
    openAt_succ ht hd (opened_subset ht) (fun b _ => hclose b)]
  rfl

/-- The line of a happening takes the snapshot before it to the one behind it. -/
theorem add_snapshot (hkeys : (d.participants.map Participant.key).Nodup) :
    (d.snapshot before).add (h.statement d.keyOf) = d.snapshot (before ++ [h]) := by
  have hh := of_next ht
  have hrank := rank_eq_length hd ht
  have hD : (d.snapshot before).participants = d.declared := rfl
  cases h with
  | message m =>
    obtain ⟨hs, htg⟩ := hd.message_ends m hh
    have hmessage : d.rankMessage m = ⟨d.newId m.source, d.newId m.target, m.type, m.label, before.length⟩ := by
      rw [← hrank]
      rfl
    rw [snapshot_leaf ht hd (by simp) (by simp) (by simp) rfl]
    simp only [Happening.statement, Draft.add, mention_keyOf hd hD hs, mention_keyOf hd hD htg, id_keyOf hd hD hkeys hs,
      id_keyOf hd hD hkeys htg, Happening.message?, Option.toList_some, List.map_singleton, hmessage]
    simp only [Happening.note?, Happening.activation?, Option.toList_none, List.map_nil, List.append_nil]
    rfl
  | note n =>
    obtain ⟨hne, hsub⟩ := hd.note_participants n hh
    have hids : (n.participants.map d.keyOf).map (d.snapshot before).id = n.participants.map d.newId := by
      rw [List.map_map]
      exact List.map_congr_left fun id hid => id_keyOf hd hD hkeys (hsub hid)
    have hnote : d.rankNote n = ⟨n.text, n.position, n.participants.map d.newId, before.length⟩ := by
      rw [← hrank]
      rfl
    rw [snapshot_leaf ht hd (by simp) (by simp) (by simp) rfl]
    simp only [Happening.statement, Draft.add, foldl_mention hd hD hsub, hids, Happening.note?, Option.toList_some,
      List.map_singleton, hnote]
    simp only [Happening.message?, Happening.activation?, Option.toList_none, List.map_nil, List.append_nil]
    rfl
  | activate a =>
    have hid := hd.activation_participant a hh
    rw [snapshot_leaf ht hd (by simp) (by simp) (by simp) rfl]
    simp only [Happening.statement, Draft.add, mention_keyOf hd hD hid, id_keyOf hd hD hkeys hid, Happening.activation?,
      Option.toList_some, List.map_singleton, activationAt_activate ht hd rfl]
    simp only [Happening.message?, Happening.note?, Option.toList_none, List.map_nil, List.append_nil]
    rfl
  | deactivate a stop =>
    have hid := hd.activation_participant a hh.1
    have hclose := closeLast_activated ht hd rfl
    have hopen := openAt_succ ht hd (opened_subset ht) (by simp)
    rw [snapshot_append, blocks_succ ht hd (by simp) (by simp)]
    simp only [Happening.statement, Draft.add, mention_keyOf hd hD hid, id_keyOf hd hD hkeys hid]
    rw [show closeLast (d.newId a.participant) (d.snapshot before).next (d.snapshot before).activations = _ from hclose]
    simp only [Happening.message?, Happening.note?, Happening.activation?, Happening.frame?, Option.toList_none,
      List.map_nil, List.append_nil, hopen]
    rfl
  | opening b =>
    obtain ⟨hstop, hblock⟩ := blockAt_opening ht hd rfl
    have hopen := openAt_succ ht hd (opened_subset ht) (by simp)
    have hb : d.openAt (before.length + 1) (opened before ++ [b]) =
        d.openAt before.length (opened before) ++ [(b, (opened before).length)] := by
      rw [openAt_split (by simp), if_pos (by omega), hopen]
    rw [snapshot_append, blocks_succ ht hd (by simp) (by simp), activations_succ ht hd (by simp)]
    simp only [Happening.statement, Draft.add, Happening.message?, Happening.note?, Happening.activation?,
      Happening.frame?, Option.toList_none, Option.toList_some, List.map_nil, List.map_singleton, List.append_nil,
      List.map_append, List.reverse_append, hb, hblock]
    simp only [snapshot, List.length_map]
    rfl
  | branch b s =>
    obtain ⟨around, i, hopen, hblocks⟩ := branch_innermost ht hd rfl
    have hsucc := openAt_succ ht hd (opened_subset ht) (by simp)
    rw [snapshot_append, hblocks, activations_succ ht hd (by simp)]
    simp only [Happening.statement, Draft.add, snapshot, Happening.message?, Happening.note?, Happening.activation?,
      Happening.frame?, Option.toList_none, List.map_nil, List.append_nil, hsucc, hopen, List.map_append,
      List.map_singleton, List.reverse_append, List.reverse_singleton, List.singleton_append]
  | closing b =>
    obtain ⟨around, i, hopen, hclosed, hblocks⟩ := closing_innermost ht hd rfl
    rw [snapshot_append, hblocks, activations_succ ht hd (by simp)]
    simp only [Happening.statement, Draft.add, Draft.close, snapshot, Happening.message?, Happening.note?,
      Happening.activation?, Happening.frame?, Option.toList_none, List.map_nil, List.append_nil, hclosed, hopen,
      List.map_append, List.map_singleton, List.reverse_append, List.reverse_singleton, List.singleton_append]

/-- The statement of a happening fits the blocks that are open, and leaves those that are open behind it. -/
theorem fits_insideAt : (h.statement d.keyOf).Fits (d.insideAt before) ∧
    (h.statement d.keyOf).inside (d.insideAt before) = d.insideAt (before ++ [h]) := by
  have hone : opened (before ++ [h]) = opened before ++ h.frame?.toList := by
    cases h <;> simp [opened, Happening.frame?]
  have hsub := opened_subset ht
  unfold insideAt
  rw [hone, List.length_append, List.length_singleton]
  cases h with
  | opening b =>
    obtain ⟨hstop, -⟩ := blockAt_opening ht hd rfl
    simp only [Happening.frame?, Option.toList_some]
    rw [openAt_split (by simp), if_pos (by omega), openAt_succ ht hd hsub (by simp), List.map_append,
      List.reverse_append]
    exact ⟨trivial, rfl⟩
  | branch b s =>
    obtain ⟨around, i, hopen, -⟩ := branch_innermost ht hd rfl
    have hb : b ∈ d.frames ∧ s ∈ b.more := of_next ht
    have halt : b.kind = .alt := kind_of_more hb.1 (List.ne_nil_of_mem hb.2)
    simp only [Happening.frame?, Option.toList_none, List.append_nil]
    rw [openAt_succ ht hd hsub (by simp), hopen, List.map_append, List.map_singleton, List.reverse_append, halt]
    exact ⟨rfl, rfl⟩
  | closing b =>
    obtain ⟨around, i, hopen, hclosed, -⟩ := closing_innermost ht hd rfl
    simp only [Happening.frame?, Option.toList_none, List.append_nil]
    rw [hopen, hclosed, List.map_append, List.map_singleton, List.reverse_append]
    exact ⟨List.cons_ne_nil _ _, rfl⟩
  | _ =>
    simp only [Happening.frame?, Option.toList_none, List.append_nil]
    rw [openAt_succ ht hd hsub (by simp)]
    exact ⟨trivial, rfl⟩

end

end Diagram

end DiagramText.Sequence

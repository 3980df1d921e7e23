import DiagramText.Proofs.Keyed
import DiagramText.Proofs.Sequence.Lines
import Mathlib.Data.List.Basic

/-!
# The orders of a draft

A draft counts: what a statement adds takes the next numbers, and every number that was taken is the order of something
(`Draft.Ordered.numbered`).  A block or an activation in the making is a `Stretch`.  The stretches of a draft are
`Uncrossed`: a new one begins behind all orders, and only the last open one of an owner goes on or ends, so that two of
one owner never cross.  One statement keeps a draft `Ordered` (`Draft.Ordered.add`), and so does a run of statements
that fit (`Draft.Ordered.foldl`).
-/

namespace DiagramText.Sequence

/-! ### Stretches -/

/-- A block or an activation by its orders.  The last one is its end if it is closed.  Blocks have no owner, and an
activation has its participant. -/
structure Stretch where
  owner : Option Id := none
  orders : List Int
  closed : Bool := false

/-- An order that comes before a stretch or behind it.  Nothing comes behind one that is not closed. -/
def Stretch.Misses (a : Stretch) (x : Int) : Prop :=
  (∀ y ∈ a.orders, x < y) ∨ a.closed = true ∧ ∀ y ∈ a.orders, y < x

/-- Stretches in the order in which they begin: no order of an earlier one falls into a later one of its owner. -/
structure Uncrossed (l : List Stretch) : Prop where
  begun : ∀ a ∈ l, a.orders ≠ []
  ascending : ∀ a ∈ l, a.orders.Pairwise (· < ·)
  starts : l.Pairwise fun a b => ∀ x ∈ a.orders.head?, ∀ y ∈ b.orders, x < y
  apart : l.Pairwise fun a b => a.owner = b.owner → ∀ x ∈ a.orders, b.Misses x

namespace Uncrossed

variable {n : Int}

theorem nil : Uncrossed [] where
  begun := by simp
  ascending := by simp
  starts := List.Pairwise.nil
  apart := List.Pairwise.nil

/-- A stretch that begins behind all orders. -/
theorem append {l : List Stretch} (h : Uncrossed l) (hn : ∀ a ∈ l, ∀ x ∈ a.orders, x < n) (owner : Option Id) :
    Uncrossed (l ++ [{ owner, orders := [n] }]) where
  begun := by
    intro a ha
    rcases List.mem_append.1 ha with ha | ha
    · exact h.begun a ha
    · rw [List.mem_singleton.1 ha]
      exact List.cons_ne_nil _ _
  ascending := by
    intro a ha
    rcases List.mem_append.1 ha with ha | ha
    · exact h.ascending a ha
    · rw [List.mem_singleton.1 ha]
      exact List.pairwise_singleton _ _
  starts := by
    refine List.pairwise_append.2 ⟨h.starts, List.pairwise_singleton _ _, ?_⟩
    intro a ha b hb x hx y hy
    rw [List.mem_singleton.1 hb, List.mem_singleton] at hy
    rw [hy]
    exact hn a ha x (List.mem_of_head? hx)
  apart := by
    refine List.pairwise_append.2 ⟨h.apart, List.pairwise_singleton _ _, ?_⟩
    intro a ha b hb _ x hx
    rw [List.mem_singleton.1 hb]
    exact Or.inl fun y hy => List.mem_singleton.1 hy ▸ hn a ha x hx

/-- The last open stretch of an owner goes on or ends behind all orders. -/
theorem grow {l r : List Stretch} {a b : Stretch} (h : Uncrossed (l ++ a :: r))
    (hn : ∀ c ∈ l ++ a :: r, ∀ x ∈ c.orders, x < n) (hopen : a.closed = false)
    (hlast : ∀ c ∈ r, a.owner = c.owner → c.closed = true) (howner : b.owner = a.owner)
    (horders : b.orders = a.orders ++ [n]) : Uncrossed (l ++ b :: r) := by
  obtain ⟨hbegun, hascending, hstarts, hapart⟩ := h
  simp only [List.forall_mem_append, List.forall_mem_cons] at hn hbegun hascending
  simp only [List.pairwise_append, List.pairwise_cons, List.forall_mem_cons] at hstarts hapart
  have hhead : b.orders.head? = a.orders.head? := by
    rw [horders, List.head?_append_of_ne_nil _ hbegun.2.1]
  have hmem : ∀ {P : Int → Prop}, (∀ x ∈ b.orders, P x) ↔ (∀ x ∈ a.orders, P x) ∧ P n := by
    intro P
    rw [horders, List.forall_mem_append, List.forall_mem_singleton]
  refine ⟨?_, ?_, ?_, ?_⟩
  · simp only [List.forall_mem_append, List.forall_mem_cons]
    exact ⟨hbegun.1, by simp [horders], hbegun.2.2⟩
  · simp only [List.forall_mem_append, List.forall_mem_cons]
    refine ⟨hascending.1, ?_, hascending.2.2⟩
    rw [horders, List.pairwise_append]
    exact ⟨hascending.2.1, List.pairwise_singleton _ _, fun x hx y hy => List.mem_singleton.1 hy ▸ hn.2.1 x hx⟩
  · simp only [List.pairwise_append, List.pairwise_cons, List.forall_mem_cons, hhead, hmem]
    refine ⟨hstarts.1, hstarts.2.1, fun c hc => ⟨fun x hx => ⟨(hstarts.2.2 c hc).1 x hx, ?_⟩, (hstarts.2.2 c hc).2⟩⟩
    exact hn.1 c hc x (List.mem_of_head? hx)
  · simp only [List.pairwise_append, List.pairwise_cons, List.forall_mem_cons, howner]
    refine ⟨hapart.1, ⟨?_, hapart.2.1.2⟩, fun c hc => ⟨?_, (hapart.2.2 c hc).2⟩⟩
    · -- The new order comes behind the later stretches, which are all closed.
      intro c hc hac
      exact hmem.2 ⟨hapart.2.1.1 c hc hac, Or.inr ⟨hlast c hc hac, hn.2.2 c hc⟩⟩
    · intro hca x hx
      rcases (hapart.2.2 c hc).1 hca x hx with hlt | ⟨hclosed, -⟩
      · exact Or.inl (hmem.2 ⟨hlt, hn.1 c hc x hx⟩)
      · rw [hopen] at hclosed
        cases hclosed

end Uncrossed

/-! ### Numbers -/

/-- The numbers below `n`, each once. -/
def Numbered (orders : List Int) (n : Nat) : Prop := orders.Perm ((List.range n).map fun i : Nat => (i : Int))

namespace Numbered

variable {orders orders' : List Int} {n : Nat}

theorem lt (h : Numbered orders n) {x : Int} (hx : x ∈ orders) : x < n := by
  obtain ⟨i, hi, rfl⟩ := List.mem_map.1 (h.mem_iff.1 hx)
  have := List.mem_range.1 hi
  omega

/-- One order more, which is the next number. -/
theorem succ (h : Numbered orders n) (hp : orders'.Perm ((n : Int) :: orders)) : Numbered orders' (n + 1) := by
  unfold Numbered at h ⊢
  rw [List.range_succ, List.map_append, List.map_singleton]
  exact hp.trans ((h.cons _).trans (List.perm_append_singleton _ _).symm)

end Numbered

/-! ### Drafts -/

def Block.stretch (b : Block) : Stretch where
  orders := b.branches.map Prod.snd ++ b.stop.toList
  closed := b.stop.isSome

def Activation.stretch (a : Activation Id) : Stretch where
  owner := some a.participant
  orders := a.orders
  closed := a.stop.isSome

/-- The blocks that are open, with their places. -/
def openBlocks (bs : List Block) : List (Block × Nat) := bs.zipIdx.filter fun p => p.1.stop.isNone

theorem openBlocks_split {l r : List Block} (b : Block) (hr : ∀ c ∈ r, c.stop.isNone = false) :
    openBlocks (l ++ b :: r) = openBlocks l ++ if b.stop.isNone = true then [(b, l.length)] else [] :=
  Keyed.filter_zipIdx_split hr

/-- The innermost open block is the last one. -/
theorem openBlocks_last {bs : List Block} {p : Block × Nat} {around : List (Block × Nat)}
    (h : openBlocks bs = around ++ [p]) : ∃ l r, bs = l ++ p.1 :: r ∧ p.2 = l.length ∧ openBlocks l = around ∧
      p.1.stop.isNone = true ∧ ∀ c ∈ r, c.stop.isNone = false := by
  induction bs using List.reverseRecOn with
  | nil => simp [openBlocks] at h
  | append_singleton bs b ih =>
    rw [openBlocks_split b (by simp)] at h
    cases hb : b.stop.isNone with
    | true =>
      rw [hb, if_pos rfl] at h
      obtain ⟨haround, hp⟩ := List.append_inj' h rfl
      rw [List.singleton_inj] at hp
      subst hp
      exact ⟨bs, [], rfl, rfl, haround, hb, by simp⟩
    | false =>
      rw [hb, if_neg Bool.false_ne_true, List.append_nil] at h
      obtain ⟨l, r, rfl, hp, haround, hopen, hr⟩ := ih h
      refine ⟨l, r ++ [b], by simp, hp, haround, hopen, ?_⟩
      intro c hc
      rcases List.mem_append.1 hc with hc | hc
      · exact hr c hc
      · rw [List.mem_singleton.1 hc, hb]

namespace Draft

variable {d : Draft}

/-- The orders that have been given to something. -/
def orders (d : Draft) : List Int :=
  d.messages.map Message.order ++ d.notes.map Note.order ++ (d.blocks.map Block.stretch).flatMap Stretch.orders ++
    (d.activations.map Activation.stretch).flatMap Stretch.orders

/-- The kinds of the open blocks, the innermost first. -/
def openKinds (d : Draft) : List BlockKind := ((openBlocks d.blocks).map fun p => p.1.kind).reverse

/-- A draft whose orders are the numbers that have been counted, in which blocks and activations do not cross, and
which knows its open blocks. -/
structure Ordered (d : Draft) : Prop where
  numbered : Numbered d.orders d.next
  messages : d.messages.Pairwise fun a b => a.order < b.order
  notes : d.notes.Pairwise fun a b => a.order < b.order
  blocks : Uncrossed (d.blocks.map Block.stretch)
  activations : Uncrossed (d.activations.map Activation.stretch)
  /-- Only alternatives have further branches. -/
  branches : ∀ b ∈ d.blocks, ∃ first more, b.branches = first :: more ∧ (more ≠ [] → b.kind = .alt)
  inside : d.inside = ((openBlocks d.blocks).map Prod.snd).reverse

namespace Ordered

/-- Who takes part has nothing to do with the orders. -/
theorem participants (h : d.Ordered) (ps : Keyed Text Participant) : { d with participants := ps }.Ordered :=
  ⟨h.numbered, h.messages, h.notes, h.blocks, h.activations, h.branches, h.inside⟩

theorem foldl_mention (h : d.Ordered) (keys : List Text) :
    (keys.foldl mention d).Ordered ∧ (keys.foldl mention d).openKinds = d.openKinds := by
  induction keys generalizing d with
  | nil => exact ⟨h, rfl⟩
  | cons key keys ih => exact ih (h.participants _)

theorem message (h : d.Ordered) {m : Message Id} (hm : m.order = d.next) :
    ({ d with messages := d.messages ++ [m], next := d.next + 1 } : Draft).Ordered :=
  { h with
    numbered := by
      refine h.numbered.succ (List.perm_iff_count.2 fun x => ?_)
      simp only [orders, List.map_append, List.map_singleton, List.count_append, List.count_cons, List.count_nil, hm]
      omega
    messages := by
      refine List.pairwise_append.2 ⟨h.messages, List.pairwise_singleton _ _, ?_⟩
      intro a ha b hb
      rw [List.mem_singleton.1 hb, hm]
      exact h.numbered.lt (by simp [orders, List.mem_map_of_mem ha]) }

theorem note (h : d.Ordered) {m : Note Id} (hm : m.order = d.next) :
    ({ d with notes := d.notes ++ [m], next := d.next + 1 } : Draft).Ordered :=
  { h with
    numbered := by
      refine h.numbered.succ (List.perm_iff_count.2 fun x => ?_)
      simp only [orders, List.map_append, List.map_singleton, List.count_append, List.count_cons, List.count_nil, hm]
      omega
    notes := by
      refine List.pairwise_append.2 ⟨h.notes, List.pairwise_singleton _ _, ?_⟩
      intro a ha b hb
      rw [List.mem_singleton.1 hb, hm]
      exact h.numbered.lt (by simp [orders, List.mem_map_of_mem ha]) }

theorem activate (h : d.Ordered) {a : Activation Id} (ha : a.start = d.next) (hopen : a.stop = none) :
    ({ d with activations := d.activations ++ [a], next := d.next + 1 } : Draft).Ordered := by
  have hstretch : a.stretch = { owner := some a.participant, orders := [(d.next : Int)] } := by
    simp [Activation.stretch, Activation.orders, ha, hopen]
  exact { h with
    numbered := by
      refine h.numbered.succ (List.perm_iff_count.2 fun x => ?_)
      simp only [orders, List.map_append, List.map_singleton, hstretch, List.flatMap_append, List.flatMap_cons,
        List.flatMap_nil, List.count_append, List.count_cons, List.count_nil]
      omega
    activations := by
      rw [List.map_append, List.map_singleton, hstretch]
      refine h.activations.append (fun c hc x hx => h.numbered.lt ?_) _
      exact List.mem_append_right _ (List.mem_flatMap.2 ⟨c, hc, hx⟩) }

theorem opening (h : d.Ordered) (kind : BlockKind) (label : Text) :
    ({ d with
        blocks := d.blocks ++ [{ kind, branches := [(label, (d.next : Int))] }]
        inside := d.blocks.length :: d.inside
        next := d.next + 1 } : Draft).Ordered :=
  { h with
    numbered := by
      refine h.numbered.succ (List.perm_iff_count.2 fun x => ?_)
      simp only [orders, List.map_append, List.map_singleton, Block.stretch, Option.toList_none, List.append_nil,
        List.flatMap_append, List.flatMap_cons, List.flatMap_nil, List.count_append, List.count_cons, List.count_nil]
      omega
    blocks := by
      rw [List.map_append, List.map_singleton]
      refine h.blocks.append (fun c hc x hx => h.numbered.lt ?_) none
      exact List.mem_append_left _ (List.mem_append_right _ (List.mem_flatMap.2 ⟨c, hc, hx⟩))
    branches := by
      intro b hb
      rcases List.mem_append.1 hb with hb | hb
      · exact h.branches b hb
      · rw [List.mem_singleton.1 hb]
        exact ⟨_, [], rfl, fun hne => absurd rfl hne⟩
    inside := by
      rw [openBlocks_split _ (by simp), h.inside]
      simp }

/-- The innermost open block goes on or ends. -/
theorem grow (h : d.Ordered) {l r : List Block} {b c : Block} (hblocks : d.blocks = l ++ b :: r)
    (hopen : b.stop.isNone = true) (hr : ∀ c ∈ r, c.stop.isNone = false)
    (horders : c.stretch.orders = b.stretch.orders ++ [(d.next : Int)])
    (hbranches : ∃ first more, c.branches = first :: more ∧ (more ≠ [] → c.kind = .alt)) :
    ({ d with
        blocks := l ++ c :: r
        inside := ((openBlocks (l ++ c :: r)).map Prod.snd).reverse
        next := d.next + 1 } : Draft).Ordered := by
  have hlaminar := h.blocks
  have hnumbered := h.numbered
  have hold := h.branches
  rw [hblocks, List.map_append, List.map_cons] at hlaminar
  rw [hblocks, List.forall_mem_append, List.forall_mem_cons] at hold
  simp only [orders, hblocks, List.map_append, List.map_cons] at hnumbered
  exact { h with
    numbered := by
      refine hnumbered.succ (List.perm_iff_count.2 fun x => ?_)
      simp only [orders, List.map_append, List.map_cons, List.flatMap_append, List.flatMap_cons, horders,
        List.count_append, List.count_cons, List.count_nil]
      omega
    blocks := by
      rw [List.map_append, List.map_cons]
      refine hlaminar.grow (fun s hs x hx => hnumbered.lt ?_) ?_ ?_ rfl horders
      · exact List.mem_append_left _ (List.mem_append_right _ (List.mem_flatMap.2 ⟨s, hs, hx⟩))
      · simpa [Block.stretch] using hopen
      · intro s hs _
        obtain ⟨a, ha, rfl⟩ := List.mem_map.1 hs
        simpa [Block.stretch] using hr a ha
    branches := by
      rw [List.forall_mem_append, List.forall_mem_cons]
      exact ⟨hold.1, hbranches, hold.2.2⟩
    inside := rfl }

theorem modify_length {l r : List Block} (b : Block) (f : Block → Block) :
    (l ++ b :: r).modify l.length f = l ++ f b :: r := by
  induction l with
  | nil => rfl
  | cons a l ih => rw [List.cons_append, List.length_cons, List.modify_succ_cons, ih, List.cons_append]

/-- The innermost open block of a draft, among the others. -/
theorem innermost (h : d.Ordered) {i : Nat} {inside : List Nat} (hi : d.inside = i :: inside) :
    ∃ l b r, d.blocks = l ++ b :: r ∧ i = l.length ∧ inside = ((openBlocks l).map Prod.snd).reverse ∧
      b.stop.isNone = true ∧ (∀ c ∈ r, c.stop.isNone = false) ∧
        d.openKinds = b.kind :: openKinds { d with blocks := l } := by
  have hopen := h.inside
  rw [hi] at hopen
  obtain ⟨around, p, hp⟩ : ∃ around p, openBlocks d.blocks = around ++ [p] := by
    refine ⟨_, _, (List.dropLast_append_getLast ?_).symm⟩
    rintro hnil
    rw [hnil] at hopen
    cases hopen
  rw [hp, List.map_append, List.reverse_append] at hopen
  injection hopen with hip hinside
  obtain ⟨l, r, hblocks, hlen, rfl, hb, hr⟩ := openBlocks_last hp
  refine ⟨l, p.1, r, hblocks, hip.trans hlen, hinside, hb, hr, ?_⟩
  rw [openKinds, hp, List.map_append, List.reverse_append]
  rfl

theorem close (h : d.Ordered) : d.close.Ordered ∧ d.close.openKinds = d.openKinds.tail ∧
    d.close.inside = d.inside.tail := by
  unfold Draft.close
  cases hi : d.inside with
  | nil =>
    refine ⟨h, ?_, hi⟩
    have hnil : openBlocks d.blocks = [] := by
      have hinside := h.inside
      rw [hi, eq_comm, List.reverse_eq_nil_iff, List.map_eq_nil_iff] at hinside
      exact hinside
    simp [openKinds, hnil]
  | cons i inside =>
    -- The block that closes is the last open one, so its end is a new order of the last open stretch.
    obtain ⟨l, b, r, hblocks, rfl, rfl, hb, hr, hkinds⟩ := h.innermost hi
    have hopen : openBlocks (l ++ { b with stop := some (d.next : Int) } :: r) = openBlocks l := by
      rw [openBlocks_split _ hr]
      simp
    have horders : ({ b with stop := some (d.next : Int) } : Block).stretch.orders =
        b.stretch.orders ++ [(d.next : Int)] := by
      rw [Option.isNone_iff_eq_none] at hb
      simp [Block.stretch, hb]
    have hbranches := h.branches b (by rw [hblocks]; simp)
    have hgrow := h.grow hblocks hb hr horders hbranches
    rw [hopen] at hgrow
    simp only [hblocks, modify_length]
    refine ⟨hgrow, ?_, rfl⟩
    rw [hkinds]
    simp only [openKinds, hopen, List.tail_cons]

theorem branch (h : d.Ordered) {label : Text} (hfits : d.openKinds.head? = some .alt) :
    (d.add (.branch label)).Ordered ∧ (d.add (.branch label)).openKinds = d.openKinds := by
  unfold Draft.add
  cases hi : d.inside with
  | nil => exact ⟨h, rfl⟩
  | cons i inside =>
    obtain ⟨l, b, r, hblocks, rfl, rfl, hb, hr, hkinds⟩ := h.innermost hi
    have hopen : openBlocks (l ++ { b with branches := b.branches ++ [(label, (d.next : Int))] } :: r) =
        openBlocks l ++ [({ b with branches := b.branches ++ [(label, (d.next : Int))] }, l.length)] := by
      rw [openBlocks_split _ hr, if_pos hb]
    have horders : ({ b with branches := b.branches ++ [(label, (d.next : Int))] } : Block).stretch.orders =
        b.stretch.orders ++ [(d.next : Int)] := by
      rw [Option.isNone_iff_eq_none] at hb
      simp [Block.stretch, hb]
    have halt : b.kind = .alt := by
      rw [hkinds] at hfits
      injection hfits
    obtain ⟨first, more, hfirst, -⟩ := h.branches b (by rw [hblocks]; simp)
    have hgrow := h.grow hblocks hb hr horders
      ⟨first, more ++ [(label, (d.next : Int))], by simp [hfirst], fun _ => halt⟩
    rw [hopen, List.map_append, List.reverse_append] at hgrow
    simp only [hblocks, modify_length]
    refine ⟨hgrow, ?_⟩
    rw [hkinds, openKinds, hopen, List.map_append, List.reverse_append]
    rfl

end Ordered

end Draft

/-! ### Ends of activations -/

theorem closeLast_eq_none_iff {participant : Id} {stop : Int} {l : List (Activation Id)} :
    closeLast participant stop l = none ↔ ∀ a ∈ l, a.participant = participant → a.stop ≠ none := by
  induction l with
  | nil => simp [closeLast]
  | cons a l ih =>
    rw [List.forall_mem_cons, ← ih, closeLast]
    cases closeLast participant stop l with
    | none =>
      dsimp only
      split
      · rename_i hopen
        simp [hopen]
      · rename_i hopen
        simpa using hopen
    | some l' => simp

/-- The activation that ends is the last one of the participant that is open. -/
theorem closeLast_eq_some {participant : Id} {stop : Int} {as bs : List (Activation Id)}
    (h : closeLast participant stop as = some bs) : ∃ l a r, as = l ++ a :: r ∧
      bs = l ++ { a with stop := some stop } :: r ∧ a.participant = participant ∧ a.stop = none ∧
        ∀ c ∈ r, c.participant = participant → c.stop ≠ none := by
  induction as generalizing bs with
  | nil => cases h
  | cons a as ih =>
    rw [closeLast] at h
    cases hrest : closeLast participant stop as with
    | some cs =>
      rw [hrest] at h
      cases h
      obtain ⟨l, b, r, rfl, rfl, hb⟩ := ih hrest
      exact ⟨a :: l, b, r, rfl, rfl, hb⟩
    | none =>
      rw [hrest] at h
      dsimp only at h
      split at h
      · rename_i hopen
        cases h
        exact ⟨[], a, as, rfl, rfl, hopen.1, hopen.2, closeLast_eq_none_iff.1 hrest⟩
      · cases h

namespace Draft

variable {d : Draft}

theorem Ordered.deactivate (h : d.Ordered) {participant : Id} {as : List (Activation Id)}
    (hclose : closeLast participant d.next d.activations = some as) :
    ({ d with activations := as, next := d.next + 1 } : Draft).Ordered := by
  obtain ⟨l, a, r, has, rfl, rfl, hopen, hr⟩ := closeLast_eq_some hclose
  have horders : ({ a with stop := some (d.next : Int) } : Activation Id).stretch.orders =
      a.stretch.orders ++ [(d.next : Int)] := by
    simp [Activation.stretch, Activation.orders, hopen]
  have hlaminar := h.activations
  have hnumbered := h.numbered
  rw [has, List.map_append, List.map_cons] at hlaminar
  simp only [orders, has, List.map_append, List.map_cons] at hnumbered
  exact { h with
    numbered := by
      refine hnumbered.succ (List.perm_iff_count.2 fun x => ?_)
      simp only [orders, List.map_append, List.map_cons, List.flatMap_append, List.flatMap_cons, horders,
        List.count_append, List.count_cons, List.count_nil]
      omega
    activations := by
      rw [List.map_append, List.map_cons]
      refine hlaminar.grow (fun s hs x hx => hnumbered.lt ?_) ?_ ?_ rfl horders
      · exact List.mem_append_right _ (List.mem_flatMap.2 ⟨s, hs, hx⟩)
      · simp [Activation.stretch, hopen]
      · intro s hs howner
        obtain ⟨c, hc, rfl⟩ := List.mem_map.1 hs
        injection howner with howner
        simpa [Activation.stretch, Option.isSome_iff_ne_none] using hr c hc howner.symm }

/-! ### Statement by statement -/

/-- A statement that fits keeps a draft ordered, and the open blocks are what they should be behind it. -/
theorem Ordered.add (h : d.Ordered) {st : Statement} (hfits : st.Fits d.openKinds) :
    (d.add st).Ordered ∧ (d.add st).openKinds = st.inside d.openKinds := by
  cases st with
  | participant kind key display => exact ⟨h.participants _, rfl⟩
  | message source target type label => exact ⟨(h.participants _).message rfl, rfl⟩
  | note position keys text =>
    obtain ⟨hmention, hkinds⟩ := h.foldl_mention keys
    exact ⟨hmention.note rfl, hkinds⟩
  | opening kind label place =>
    refine ⟨h.opening kind label, ?_⟩
    rw [Draft.add, openKinds, openBlocks_split _ (by simp)]
    simp [openKinds, Statement.inside]
  | branch label => exact h.branch hfits
  | closing => exact ⟨h.close.1, h.close.2.1⟩
  | activate key => exact ⟨(h.participants _).activate rfl rfl, rfl⟩
  | deactivate key =>
    have hmention : (d.mention key).Ordered := h.participants _
    rw [Draft.add]
    split
    · rename_i as hclose
      exact ⟨hmention.deactivate hclose, rfl⟩
    · exact ⟨hmention, rfl⟩
  | faulty e => exact ⟨h, rfl⟩
  | skippedLine kind place => exact ⟨h, rfl⟩
  | noArrow name place => exact ⟨h, rfl⟩

theorem Ordered.foldl {sts : List Statement} (h : d.Ordered) (hfit : Fitting d.openKinds sts) :
    (sts.foldl Draft.add d).Ordered := by
  induction sts generalizing d with
  | nil => exact h
  | cons st sts ih =>
    obtain ⟨hfits, hrest⟩ := hfit
    obtain ⟨hadd, hkinds⟩ := h.add hfits
    exact ih hadd (hkinds ▸ hrest)

theorem Ordered.closeAll (h : d.Ordered) : d.closeAll.Ordered ∧ d.closeAll.inside = [] := by
  have hrun : ∀ (l : List Nat) {d : Draft}, d.Ordered → d.inside = l →
      (l.foldl (fun d _ => d.close) d).Ordered ∧ (l.foldl (fun d _ => d.close) d).inside = [] := by
    intro l
    induction l with
    | nil => exact fun h hl => ⟨h, hl⟩
    | cons i l ih =>
      intro d h hl
      refine ih h.close.1 ?_
      rw [h.close.2.2, hl, List.tail_cons]
  exact hrun d.inside h rfl

theorem ordered_empty : ({} : Draft).Ordered := by constructor <;> simp [orders, Numbered, openBlocks, Uncrossed.nil]

/-- Statements that fit make an ordered draft in which no block is open. -/
theorem ordered_ofStatements {sts : List Statement} (hfit : Fitting [] sts) :
    (ofStatements sts).Ordered ∧ (ofStatements sts).inside = [] := (ordered_empty.foldl hfit).closeAll

end Draft

end DiagramText.Sequence

import DiagramText.Proofs.Sequence.Order
import DiagramText.Proofs.Sequence.Script

/-!
# Bracketing

Whoever reads a script keeps the open blocks as a stack (`openBehind`): the line that opens a block puts it on top, and
an end line takes away whatever is on top.  In a diagram whose blocks are `Laminar`, however many lines share an order,
the stack holds at every line the blocks whose end line is still to come, each inside the next (`Laminar.nest`).  So an
end line ends the block that it was written for, and the indents count the blocks around a line (`Laminar.bracketed`).
-/

namespace DiagramText.Sequence

/-! ### The stack -/

/-- The open blocks behind a line, the innermost first. -/
def Happening.inside (stack : List Frame) : Happening → List Frame
  | opening b => b :: stack
  | closing _ => stack.tail
  | _ => stack

/-- The open blocks behind some lines, the innermost first. -/
def openBehind (hs : List Happening) : List Frame := hs.foldl Happening.inside []

theorem openBehind_append (hs : List Happening) (h : Happening) :
    openBehind (hs ++ [h]) = h.inside (openBehind hs) := by
  rw [openBehind, List.foldl_append]
  rfl

/-- The open blocks in which a line is written: an end and a branch stand outside the innermost one. -/
def Happening.outside (stack : List Frame) : Happening → List Frame
  | branch _ _ => stack.tail
  | closing _ => stack.tail
  | _ => stack

/-- The depth of a line is the height of the stack. -/
private theorem depths_cons (key : Id → Text) (stack : List Frame) (h : Happening) (es : List Event) :
    depths (1 + stack.length) (h.event key :: es) =
      (1 + (h.outside stack).length, h.event key) :: depths (1 + (h.inside stack).length) es := by
  have htail : max 1 (1 + stack.length - 1) = 1 + stack.tail.length := by
    rw [List.length_tail]
    omega
  have hpush : ∀ b : Frame, 1 + stack.length + 1 = 1 + (b :: stack).length := by
    intro b
    rw [List.length_cons]
    omega
  cases h with
  | message | note | activate | deactivate => rfl
  | opening b => simp only [Happening.event, depths, Happening.outside, Happening.inside, hpush b]
  | branch b s => simp only [Happening.event, depths, Happening.outside, Happening.inside, htail]
  | closing b => simp only [Happening.event, depths, Happening.outside, Happening.inside, htail]

private theorem getElem?_depths (key : Id → Text) (before after : List Happening) (h : Happening)
    (stack : List Frame) :
    (depths (1 + stack.length) ((before ++ h :: after).map (Happening.event key)))[before.length]? =
      some (1 + (h.outside (before.foldl Happening.inside stack)).length, h.event key) := by
  induction before generalizing stack with
  | nil =>
    rw [List.nil_append, List.map_cons, depths_cons]
    rfl
  | cons i before ih =>
    rw [List.cons_append, List.map_cons, depths_cons, List.length_cons, List.getElem?_cons_succ, ih]
    rfl

/-! ### Laminar blocks -/

/-- A block lies in another; they may begin or end together. -/
def Frame.LiesIn (a b : Frame) : Prop := b.start ≤ a.start ∧ a.stop ≤ b.stop

instance : DecidableRel Frame.LiesIn := fun a b => inferInstanceAs (Decidable (b.start ≤ a.start ∧ a.stop ≤ b.stop))

instance : DecidableRel Frame.Apart := fun a b => inferInstanceAs (Decidable (a.stop < b.start ∨ b.stop < a.start))

/-- No block ends before it begins, and of two blocks, which do not both begin and end together, one lies in the other
or they are apart. -/
structure Diagram.Laminar (d : Diagram) : Prop where
  forward : ∀ b ∈ d.frames, b.start ≤ b.stop
  nested : d.frames.Pairwise fun a b =>
    (a.start, a.stop) ≠ (b.start, b.stop) ∧ (a.Apart b ∨ a.LiesIn b ∨ b.LiesIn a)

namespace Diagram

variable {d : Diagram}

theorem Laminar.nodup (hd : d.Laminar) : d.frames.Nodup := by
  refine hd.nested.imp ?_
  rintro a _ h rfl
  exact h.1 rfl

/-- Two blocks that begin and end differently, one of which lies in the other unless they are apart. -/
theorem Laminar.relate (hd : d.Laminar) {a b : Frame} (ha : a ∈ d.frames) (hb : b ∈ d.frames) (hne : a ≠ b) :
    (a.start = b.start → a.stop ≠ b.stop) ∧ (a.Apart b ∨ a.LiesIn b ∨ b.LiesIn a) := by
  have hsymm : Std.Symm fun a b : Frame =>
      (a.start, a.stop) ≠ (b.start, b.stop) ∧ (a.Apart b ∨ a.LiesIn b ∨ b.LiesIn a) := by
    constructor
    rintro a b ⟨hdiff, h⟩
    refine ⟨hdiff.symm, ?_⟩
    rcases h with h | h | h
    · exact Or.inl h.symm
    · exact Or.inr (Or.inr h)
    · exact Or.inr (Or.inl h)
  obtain ⟨hdiff, h⟩ := hd.nested.forall ha hb hne
  refine ⟨?_, h⟩
  intro hstart hstop
  exact hdiff (by rw [hstart, hstop])

/-! ### Ends of blocks -/

/-- Each line that opens or ends a block is written once. -/
theorem Laminar.pairwise_ends (hd : d.Laminar) :
    d.script.Pairwise fun a b => a.isEnd = true → b.isEnd = true → a ≠ b := by
  have hperm : (d.script.filter Happening.isEnd).Perm (d.frames.flatMap fun b => [.opening b, .closing b]) := by
    have hframe : ∀ b : Frame, b.happenings.filter Happening.isEnd = [.opening b, .closing b] := by
      intro b
      have hmore : (b.more.map (Happening.branch b)).filter Happening.isEnd = [] := by
        simp [Happening.isEnd]
      simp [Frame.happenings, List.filter_cons, Happening.isEnd, hmore]
    have hactivation : ∀ a : Activation Id, a.happenings.filter Happening.isEnd = [] := by
      intro a
      simp [Activation.happenings, Happening.isEnd]
    have hmessages : ∀ ms : List (Message Id), (ms.map Happening.message).filter Happening.isEnd = [] := by
      intro ms
      simp [Happening.isEnd]
    have hnotes : ∀ ns : List (Note Id), (ns.map Happening.note).filter Happening.isEnd = [] := by
      intro ns
      simp [Happening.isEnd]
    have hends : d.known.happenings.filter Happening.isEnd = d.frames.flatMap fun b => [.opening b, .closing b] := by
      have hnone : d.known.activations.flatMap (fun a => a.happenings.filter Happening.isEnd) = [] := by
        simp [hactivation]
      simp only [happenings, List.filter_append, List.filter_flatMap, hmessages, hnotes, hframe, hnone,
        List.append_nil, List.nil_append]
      rfl
    rw [← hends]
    exact (sortBy_perm _ _).filter _
  rw [← List.pairwise_filter]
  show (d.script.filter Happening.isEnd).Nodup
  rw [hperm.nodup_iff, List.nodup_flatMap]
  refine ⟨by simp, hd.nodup.imp ?_⟩
  intro a b hab
  simp [Function.onFun, hab.symm]

section

variable {before after : List Happening} {h : Happening} (hd : d.Laminar) (hs : d.script = before ++ h :: after)
include hd hs

theorem Laminar.not_mem_before (hend : h.isEnd = true) : h ∉ before := by
  have hpair := hd.pairwise_ends
  rw [hs, List.pairwise_append] at hpair
  exact fun hmem => hpair.2.2 h hmem h List.mem_cons_self hend hend rfl

/-- What opens or ends a block and is not written before a line is written behind it. -/
theorem Laminar.mem_after_iff {i : Happening} (hi : i.Of d.known) (hend : i.isEnd = true) :
    i ∈ after ↔ i ∉ before ∧ i ≠ h := by
  have hpair := hd.pairwise_ends
  rw [hs, List.pairwise_append, List.pairwise_cons] at hpair
  constructor
  · intro hmem
    constructor
    · exact fun hbefore => hpair.2.2 i hbefore i (List.mem_cons_of_mem h hmem) hend hend rfl
    · rintro rfl
      exact hpair.2.1.1 i hmem hend hend rfl
  · rintro ⟨hbefore, hne⟩
    exact (mem_before_or_after hs hi hne).resolve_left hbefore

end

/-! ### The blocks that are open -/

/-- The stack behind some lines: the blocks that have been opened and have not ended, each inside the next. -/
structure Nest (before : List Happening) (stack : List Frame) : Prop where
  mem : ∀ b, b ∈ stack ↔ .opening b ∈ before ∧ .closing b ∉ before
  nested : stack.Pairwise fun a b => a ≠ b ∧ a.LiesIn b

section

variable {before after : List Happening} (hd : d.Laminar)
include hd

/-- The block that an end line was written for is on top of the stack. -/
theorem Nest.top {stack : List Frame} (hn : Nest before stack) {b : Frame}
    (hs : d.script = before ++ .closing b :: after) : ∃ rest, stack = b :: rest := by
  have hb : b ∈ d.frames := of_script hs
  have hforward := hd.forward b hb
  have hbefore := hd.not_mem_before hs rfl
  have hopen : .opening b ∈ before := by
    refine (mem_before_or_after hs (i := .opening b) hb (by simp)).resolve_right fun hmem => ?_
    have := Happening.closing_le_opening_iff.1 (le_of_mem_after hs hmem)
    omega
  have hmem : b ∈ stack := (hn.mem b).2 ⟨hopen, hbefore⟩
  cases hstack : stack with
  | nil => rw [hstack] at hmem; cases hmem
  | cons c rest =>
    rw [hstack] at hmem
    rcases List.mem_cons.1 hmem with rfl | hrest
    · exact ⟨rest, rfl⟩
    · -- a block inside `b` that is still open would have to end first
      obtain ⟨hne, hin⟩ : c ≠ b ∧ c.LiesIn b := by
        have hnested := hn.nested
        rw [hstack, List.pairwise_cons] at hnested
        exact hnested.1 b hrest
      obtain ⟨hopenc, hclosec⟩ := (hn.mem c).1 (hstack ▸ List.mem_cons_self)
      have hc : c ∈ d.frames := of_script_before hs hopenc
      have hlater := (hd.mem_after_iff hs (i := .closing c) hc rfl).2 ⟨hclosec, by simpa using hne⟩
      have hle := Happening.closing_le_closing_iff.1 (le_of_mem_after hs hlater)
      obtain ⟨hdiff, -⟩ := hd.relate hc hb hne
      obtain ⟨hstart, hstop⟩ := hin
      omega

/-- A line leads from stack to stack. -/
theorem Nest.step {h : Happening} {stack : List Frame} (hn : Nest before stack) (hs : d.script = before ++ h :: after) :
    Nest (before ++ [h]) (h.inside stack) := by
  cases h with
  | message | note | branch | activate | deactivate =>
    refine ⟨?_, hn.nested⟩
    intro b
    simpa [Happening.inside] using hn.mem b
  | opening b =>
    have hb : b ∈ d.frames := of_script hs
    have hforward := hd.forward b hb
    have hbefore := hd.not_mem_before hs rfl
    have hclose : .closing b ∉ before := by
      intro hmem
      have := Happening.closing_le_opening_iff.1 (le_of_mem_before hs hmem)
      omega
    constructor
    · intro c
      by_cases hcb : c = b
      · subst hcb
        simp [Happening.inside, hclose]
      · simp [Happening.inside, hcb, hn.mem c]
    · refine List.pairwise_cons.2 ⟨?_, hn.nested⟩
      intro c hc
      obtain ⟨hopenc, hclosec⟩ := (hn.mem c).1 hc
      have hcd : c ∈ d.frames := of_script_before hs hopenc
      have hne : b ≠ c := by
        rintro rfl
        exact hbefore hopenc
      have hlater := (hd.mem_after_iff hs (i := .closing c) hcd rfl).2 ⟨hclosec, by simp⟩
      have hstart := Happening.opening_le_opening_iff.1 (le_of_mem_before hs hopenc)
      have hstop := Happening.opening_le_closing_iff.1 (le_of_mem_after hs hlater)
      obtain ⟨hdiff, hrelate⟩ := hd.relate hb hcd hne
      simp only [Frame.Apart, Frame.LiesIn] at hrelate ⊢
      exact ⟨hne, by omega⟩
  | closing b =>
    obtain ⟨rest, rfl⟩ := hn.top hd hs
    have hnested := hn.nested
    rw [List.pairwise_cons] at hnested
    refine ⟨?_, hnested.2⟩
    intro c
    have hmem := hn.mem c
    by_cases hcb : c = b
    · subst hcb
      have hnot : c ∉ rest := fun hc => (hnested.1 c hc).1 rfl
      simp [Happening.inside, hnot]
    · simpa [Happening.inside, hcb] using hmem

/-- The stack behind any first lines of the script. -/
theorem Laminar.nest (hs : d.script = before ++ after) : Nest before (openBehind before) := by
  induction before using List.reverseRecOn generalizing after with
  | nil =>
    refine ⟨?_, List.Pairwise.nil⟩
    intro b
    simp [openBehind]
  | append_singleton before h ih =>
    rw [List.append_assoc] at hs
    rw [openBehind_append]
    exact (ih hs).step hd hs

end

/-! ### The lines -/

/-- The blocks whose first line comes before a place and whose last line comes behind it. -/
def around (d : Diagram) (before after : List Happening) : List Frame :=
  d.frames.filter fun b => .opening b ∈ before ∧ .closing b ∈ after

end Diagram

/-- How far a line is moved in, of `n` blocks around it: a branch stands where the line of its block does. -/
def Happening.level (n : Nat) : Happening → Nat
  | branch _ _ => n - 1
  | _ => n

namespace Diagram

variable {d : Diagram}

section

variable {before after : List Happening} {h : Happening} (hs : d.script = before ++ h :: after)
include hs

/-- A line that opens and ends no block stands in the blocks whose orders are around its own. -/
theorem mem_around_iff (hend : h.isEnd = false) {b : Frame} (hb : b ∈ d.frames) :
    b ∈ d.around before after ↔ b.start ≤ h.order ∧ h.order ≤ b.stop := by
  have hopen : .opening b ∈ before ↔ b.start ≤ h.order := by
    have hsplit := mem_before_or_after hs (i := .opening b) hb (by rintro rfl; cases hend)
    constructor
    · exact fun hmem => (Happening.opening_le_iff hend).1 (le_of_mem_before hs hmem)
    · intro hle
      refine hsplit.resolve_right fun hmem => ?_
      have := (Happening.le_opening_iff hend).1 (le_of_mem_after hs hmem)
      omega
  have hclose : .closing b ∈ after ↔ h.order ≤ b.stop := by
    have hsplit := mem_before_or_after hs (i := .closing b) hb (by rintro rfl; cases hend)
    constructor
    · exact fun hmem => (Happening.le_closing_iff hend).1 (le_of_mem_after hs hmem)
    · intro hle
      refine hsplit.resolve_left fun hmem => ?_
      have := (Happening.closing_le_iff hend).1 (le_of_mem_before hs hmem)
      omega
  rw [around, List.mem_filter, decide_eq_true_eq, hopen, hclose]
  exact and_iff_right hb

/-- A line is moved in by the blocks around it, and they are on the stack. -/
theorem Laminar.length_outside (hd : d.Laminar) :
    (h.outside (openBehind before)).length = h.level (d.around before after).length := by
  have hn := hd.nest hs
  have hnodup : (openBehind before).Nodup := hn.nested.imp fun hab => hab.1
  have hmem : ∀ b, b ∈ d.around before after ↔ b ∈ openBehind before ∧ .closing b ≠ h := by
    intro b
    rw [around, List.mem_filter, decide_eq_true_eq, hn.mem]
    constructor
    · rintro ⟨hb, hopen, hclose⟩
      obtain ⟨hbefore, hne⟩ := (hd.mem_after_iff hs (i := .closing b) hb rfl).1 hclose
      exact ⟨⟨hopen, hbefore⟩, hne⟩
    · rintro ⟨⟨hopen, hbefore⟩, hne⟩
      have hb : b ∈ d.frames := of_script_before hs hopen
      exact ⟨hb, hopen, (hd.mem_after_iff hs (i := .closing b) hb rfl).2 ⟨hbefore, hne⟩⟩
  have haround : (d.around before after).Nodup := hd.nodup.filter _
  -- an end line is the only one whose own block is still on the stack
  by_cases hclosing : ∃ b, h = .closing b
  · obtain ⟨b, rfl⟩ := hclosing
    obtain ⟨rest, hrest⟩ := hn.top hd hs
    rw [hrest, List.nodup_cons] at hnodup
    have hperm : (d.around before after).Perm rest := by
      rw [List.perm_ext_iff_of_nodup haround hnodup.2]
      intro c
      rw [hmem, hrest, List.mem_cons, ne_eq, Happening.closing.injEq]
      constructor
      · rintro ⟨hc | hc, hne⟩
        · exact absurd hc hne
        · exact hc
      · intro hc
        refine ⟨Or.inr hc, ?_⟩
        rintro rfl
        exact hnodup.1 hc
    rw [hrest]
    exact hperm.length_eq.symm
  · have hperm : (d.around before after).Perm (openBehind before) := by
      rw [List.perm_ext_iff_of_nodup haround hnodup]
      intro c
      rw [hmem]
      exact and_iff_left fun he => hclosing ⟨c, he.symm⟩
    rw [hperm.length_eq]
    cases h with
    | closing b => exact absurd ⟨b, rfl⟩ hclosing
    | branch b s => exact List.length_tail
    | message | note | opening | activate | deactivate => rfl

end

/-- Behind the last line no block is open. -/
theorem Laminar.openBehind_script (hd : d.Laminar) : openBehind d.script = [] := by
  have hn : Nest d.script (openBehind d.script) := hd.nest (List.append_nil _).symm
  rw [List.eq_nil_iff_forall_not_mem]
  intro b hb
  obtain ⟨hopen, hclose⟩ := (hn.mem b).1 hb
  have hmem : b ∈ d.frames := d.mem_script.1 hopen
  exact hclose (d.mem_script.2 hmem)

private theorem length_head (d : Diagram) (size : Int) :
    (Kind.header.text :: d.sortedParticipants.map fun p => Text.indent size 1 ++ p.line).length =
      1 + d.participants.length := by
  rw [List.length_cons, List.length_map, sortedParticipants, (sortBy_perm _ _).length_eq, Nat.add_comm]

/-- The lines of a diagram behind its participants are those of the script. -/
theorem getElem?_lines {before after : List Happening} {h : Happening} (hs : d.script = before ++ h :: after)
    (size : Int) : (d.lines size)[1 + d.participants.length + before.length]? =
      some (Text.indent size (1 + (h.outside (openBehind before)).length) ++ (h.event d.nameOf).text) := by
  have hhead := length_head d size
  have hdepth := getElem?_depths d.nameOf before after h []
  rw [List.length_nil, Nat.add_zero, ← hs, ← sortedEvents_eq_script] at hdepth
  rw [lines, List.getElem?_append_right (by omega), hhead, Nat.add_sub_cancel_left, List.getElem?_map, hdepth]
  rfl

/-- What holds at a line of the script. -/
structure Bracketed (d : Diagram) (before : List Happening) (h : Happening) (after : List Happening) : Prop where
  /-- An end line ends the block that it was written for. -/
  ends : ∀ b, h = .closing b → (openBehind before).head? = some b
  /-- A line that opens and ends no block stands in the blocks whose orders are around its own. -/
  inside : h.isEnd = false → ∀ b ∈ d.frames, b ∈ d.around before after ↔ b.start ≤ h.order ∧ h.order ≤ b.stop
  /-- A line is moved in by the blocks around it. -/
  written : ∀ size : Int, (d.lines size)[1 + d.participants.length + before.length]? =
    some (Text.indent size (1 + h.level (d.around before after).length) ++ (h.event d.nameOf).text)

/-- If the blocks are laminar, the lines behind the participants are well bracketed, whatever orders they share. -/
theorem Laminar.bracketed (hd : d.Laminar) : openBehind d.script = [] ∧
    (∀ size : Int, (d.lines size).length = 1 + d.participants.length + d.script.length) ∧
      ∀ before h after, d.script = before ++ h :: after → d.Bracketed before h after := by
  refine ⟨hd.openBehind_script, ?_, ?_⟩
  · intro size
    rw [lines, List.length_append, length_head, List.length_map, ← List.length_map (f := Prod.snd), map_snd_depths,
      sortedEvents_eq_script, List.length_map]
  · intro before h after hs
    refine ⟨?_, fun hend b hb => mem_around_iff hs hend hb, ?_⟩
    · rintro b rfl
      obtain ⟨rest, hrest⟩ := (hd.nest hs).top hd hs
      rw [hrest]
      rfl
    · intro size
      rw [getElem?_lines hs, hd.length_outside hs]

end Diagram

/-- A day on which everything falls on three hours: a block of one hour and one of two inside one that begins with
them, and another that ends with it. -/
def rehearsal : Diagram where
  participants := [{ id := .given "a".toList, name := "Ann".toList }]
  messages := [
    { source := .given "a".toList, target := .given "a".toList, label := "cue".toList, order := 9 },
    { source := .given "a".toList, target := .given "a".toList, label := "bow".toList, order := 11 },
    { source := .given "a".toList, target := .given "nobody".toList, order := 9 }]
  notes := [{ text := "hush".toList, participants := [.given "nobody".toList, .given "a".toList], order := 9 }]
  activations := [{ participant := .given "a".toList, start := 9, stop := some 11 }]
  loops := [{ label := "hour".toList, start := 9, stop := 9 }, { label := "day".toList, start := 9, stop := 11 }]
  alts := [[{ label := "early".toList, start := 9, stop := 10 }], []]
  opts := [{ label := "late".toList, start := 11, stop := 11 }]

theorem bracketed_rehearsal : rehearsal.Laminar ∧
    ∀ before h after, rehearsal.script = before ++ h :: after → rehearsal.Bracketed before h after := by
  have h : rehearsal.Laminar := by
    constructor
    all_goals decide
  exact ⟨h, h.bracketed.2.2⟩

example : rehearsal.lines 1 = [
    "sequenceDiagram".toList, " participant Ann".toList, " loop day".toList, "  alt early".toList,
    "   loop hour".toList, "    activate Ann".toList, "    Ann->>Ann: cue".toList, "    Note over Ann: hush".toList,
    "   end".toList, "  end".toList, "  opt late".toList, "   deactivate Ann".toList, "   Ann->>Ann: bow".toList,
    "  end".toList, " end".toList] := by decide +kernel

end DiagramText.Sequence

import DiagramText.Proofs.Report
import DiagramText.Proofs.Sequence.Order
import DiagramText.Proofs.Sequence.RoundTrip

/-!
# The texts of a diagram that was read

The statements of a text are clean (`clean_of_mem_document`), and so are the texts of the draft that they make
(`Draft.Clean.add`) and those of its diagram (`free_of_read`).  The name of a participant is what the text calls it
unless it was given behind `as` (`Participant.Named`).
-/

namespace DiagramText.Sequence

/-- A participant as a text declares or mentions it under a key. -/
structure Participant.Named (key : Text) (p : Participant) : Prop where
  quotable : Text.isQuotable key = true
  one_line : '\n' ∉ p.name
  called : p.shortName = none ∧ p.name = key ∨ p.shortName = some key ∧ p.name ≠ []

/-- A draft of which every text was read from a line. -/
structure Draft.Clean (d : Draft) : Prop where
  participants : ∀ e ∈ d.participants, e.2.Named e.1
  messages : ∀ m ∈ d.messages, IsFree m.label
  notes : ∀ n ∈ d.notes, n.participants ≠ [] ∧ IsFree n.text
  blocks : ∀ b ∈ d.blocks, ∀ branch ∈ b.branches, IsFree branch.1

namespace Draft.Clean

variable {d : Draft}

theorem mention (h : d.Clean) {key : Text} (hkey : Text.isQuotable key = true) : (d.mention key).Clean :=
  { h with
    participants := by
      apply Keyed.forall_upsert h.participants
      rintro (_ | p) hold
      · exact ⟨hkey, (Text.isQuotable_iff.1 hkey).2, Or.inl ⟨rfl, rfl⟩⟩
      · exact hold p rfl }

theorem foldl_mention (h : d.Clean) {keys : List Text} (hkeys : ∀ key ∈ keys, Text.isQuotable key = true) :
    (keys.foldl Draft.mention d).Clean := by
  induction keys generalizing d with
  | nil => exact h
  | cons key keys ih =>
    rw [List.forall_mem_cons] at hkeys
    exact ih (h.mention hkeys.1) hkeys.2

private theorem forall_mem_modify {P : Block → Prop} {bs : List Block} {f : Block → Block} (h : ∀ b ∈ bs, P b)
    (hf : ∀ b, P b → P (f b)) (i : Nat) : ∀ b ∈ bs.modify i f, P b := by
  intro b hb
  obtain ⟨j, hj⟩ := List.mem_iff_getElem?.1 hb
  rw [List.getElem?_modify] at hj
  obtain ⟨c, hc, rfl⟩ := Option.map_eq_some_iff.1 hj
  have hcP := h c (List.mem_of_getElem? hc)
  split
  · exact hf c hcP
  · exact hcP

theorem close (h : d.Clean) : d.close.Clean := by
  unfold Draft.close
  split
  · exact h
  · refine { h with blocks := ?_ }
    refine forall_mem_modify (P := fun b => ∀ branch ∈ b.branches, IsFree branch.1) h.blocks ?_ _
    exact fun b hb => hb

/-- A clean statement keeps a draft clean. -/
theorem add (h : d.Clean) {st : Statement} (hst : st.Clean) : (d.add st).Clean := by
  cases st with
  | participant kind key display =>
    obtain ⟨hkey, hdisplay⟩ := hst
    refine { h with participants := Keyed.forall_upsert h.participants fun old _ => ?_ }
    cases display with
    | none => exact ⟨hkey, (Text.isQuotable_iff.1 hkey).2, Or.inl ⟨rfl, rfl⟩⟩
    | some name => exact ⟨hkey, (hdisplay name rfl).2, Or.inr ⟨rfl, (hdisplay name rfl).1⟩⟩
  | message source target type label =>
    obtain ⟨hsource, htarget, hlabel⟩ := hst
    have hboth := (h.mention hsource).mention htarget
    exact { hboth with
      messages := List.forall_mem_append.2 ⟨hboth.messages, List.forall_mem_singleton.2 hlabel⟩ }
  | note position keys text =>
    obtain ⟨hne, hkeys, htext⟩ := hst
    have hall := h.foldl_mention hkeys
    have hnote : keys.map (keys.foldl Draft.mention d).id ≠ [] ∧ IsFree text := ⟨by simpa using hne, htext⟩
    exact { hall with notes := List.forall_mem_append.2 ⟨hall.notes, List.forall_mem_singleton.2 hnote⟩ }
  | opening kind label place =>
    have hblock : ∀ branch ∈ [(label, (d.next : Int))], IsFree branch.1 := List.forall_mem_singleton.2 hst
    exact { h with blocks := List.forall_mem_append.2 ⟨h.blocks, List.forall_mem_singleton.2 hblock⟩ }
  | branch label =>
    rw [Draft.add]
    split
    · exact h
    · refine { h with blocks := ?_ }
      refine forall_mem_modify (P := fun b => ∀ branch ∈ b.branches, IsFree branch.1) h.blocks ?_ _
      exact fun b hb => List.forall_mem_append.2 ⟨hb, List.forall_mem_singleton.2 hst⟩
  | closing => exact h.close
  | activate key =>
    have hone := h.mention hst
    exact { hone with }
  | deactivate key =>
    have hone := h.mention hst
    rw [Draft.add]
    split
    · exact { hone with }
    · exact hone
  | faulty e => exact h
  | skippedLine kind place => exact h
  | noArrow name place => exact h

theorem ofStatements {sts : List Statement} (hsts : ∀ st ∈ sts, st.Clean) : (Draft.ofStatements sts).Clean := by
  have hempty : ({} : Draft).Clean := by
    constructor <;> simp
  exact ofStatements_induction hempty (fun st hst _ h => h.add (hsts st hst)) fun h => h.close

end Draft.Clean

/-! ### The diagram -/

namespace Participant

variable {key : Text} {p : Participant}

theorem Named.isQuotable_key (h : p.Named key) (hquote : '"' ∉ p.key) : Text.isQuotable p.key = true := by
  rw [Text.isQuotable_iff]
  refine ⟨hquote, ?_⟩
  rcases h.called with ⟨hshort, -⟩ | ⟨hshort, -⟩
  · rw [Participant.key, hshort]
    exact h.one_line
  · rw [Participant.key, hshort]
    split
    · rename_i hkey
      cases hkey
      exact (Text.isQuotable_iff.1 h.quotable).2
    · exact h.one_line

theorem eq_name_of_mem_display? {name : Text} (h : name ∈ p.display?) : name = p.name := by
  unfold display? at h
  split at h
  · split at h
    · cases h
      rfl
    · cases h
  · cases h

end Participant

private theorem label_of_mem_chain {stop : Int} {bs : List (Text × Int)} :
    ∀ s ∈ chain stop bs, ∃ branch ∈ bs, s.label = branch.1 := by
  induction bs with
  | nil => simp [chain]
  | cons b bs ih =>
    rw [chain, List.forall_mem_cons]
    refine ⟨⟨b, List.mem_cons_self, rfl⟩, ?_⟩
    intro s hs
    obtain ⟨branch, hbranch, hlabel⟩ := ih s hs
    exact ⟨branch, List.mem_cons_of_mem b hbranch, hlabel⟩

section

variable {stack : Stack} {s : Text} {d : Diagram} (h : (read stack s).outcome = .ok d)
include h

private theorem clean_of_read : ∃ D : Draft, D.Clean ∧ (∀ b ∈ D.blocks, b.Closed) ∧ D.toDiagram = d := by
  obtain ⟨-, -, hd⟩ := read_eq_ok_iff_statements.1 h
  obtain ⟨hordered, hinside⟩ := Draft.ordered_ofStatements (fitting_document (tokenize rule s))
  exact ⟨_, Draft.Clean.ofStatements (clean_of_mem_document s), hordered.closed hinside, hd⟩

theorem named_of_read : ∀ p ∈ d.participants, ∃ key, p.Named key := by
  obtain ⟨D, hD, -, rfl⟩ := clean_of_read h
  intro p hp
  obtain ⟨e, he, rfl⟩ := List.mem_map.1 hp
  exact ⟨e.1, hD.participants e he⟩

theorem note_participants_ne_nil_of_read : ∀ n ∈ d.notes, n.participants ≠ [] := by
  obtain ⟨D, hD, -, rfl⟩ := clean_of_read h
  exact fun n hn => (hD.notes n hn).1

/-- The free texts of a diagram that was read are read again as they are written, and every text stays on its line, if
no participant is called by a text with a quote. -/
theorem free_of_read (hquote : ∀ p ∈ d.participants, '"' ∉ p.key) : d.Free := by
  have hnamed := named_of_read h
  obtain ⟨D, hD, hclosed, rfl⟩ := clean_of_read h
  have hblocks : ∀ b ∈ D.toDiagram.frames, ∀ t ∈ b.branches, IsFree t.label := by
    intro b hb t ht
    obtain ⟨block, hblock, rfl⟩ := List.mem_map.1 ((Draft.frames_perm hclosed).mem_iff.1 hb)
    rw [← (hclosed block hblock).spans, Block.spans] at ht
    cases hstop : block.stop with
    | none =>
      rw [hstop] at ht
      cases ht
    | some stop =>
      rw [hstop] at ht
      obtain ⟨branch, hbranch, hlabel⟩ := label_of_mem_chain t ht
      rw [hlabel]
      exact hD.blocks block hblock branch hbranch
  refine { quotable := ?_, display := ?_, message_label := fun m hm => (hD.messages m hm).one_line,
           note_text := fun n hn => (hD.notes n hn).2.one_line,
           block_label := fun b hb t ht => (hblocks b hb t ht).one_line,
           message_freed := fun m hm => (hD.messages m hm).freed, note_freed := fun n hn => (hD.notes n hn).2.freed,
           block_freed := fun b hb t ht => (hblocks b hb t ht).freed }
  · intro p hp
    obtain ⟨key, hp'⟩ := hnamed p hp
    exact hp'.isQuotable_key (hquote p hp)
  · intro p hp name hname
    obtain ⟨key, hp'⟩ := hnamed p hp
    rw [Participant.eq_name_of_mem_display? hname]
    exact hp'.one_line

end

end DiagramText.Sequence

import DiagramText.Proofs.Sequence.Agreement
import DiagramText.Proofs.Sequence.Spelling
import Mathlib.Data.List.Perm.Subperm

/-!
# Writing and reading what a text holds

The diagram of a text is written, read back and written again.  If no participant is called by a text with a quote, it
can be read back, and the second diagram and the second text are the first ones if and only if no two participants
share a key and every name behind `as` is kept (`read_write_iff_kept`).  Not every name is: blanks at its ends, which a
string in the first text can hold, are lost (`read_write_blanks`).

Whether keys are shared is told by counting: only participants of the diagram are mentioned in its text
(`mem_keys_statements`), so where as many come back no two of them share a key.
-/

namespace DiagramText.Sequence

/-! ### Names that are kept -/

/-- A name that is read behind `as` as it is written: no blanks around it, no comment in it, and not cut into one
string. -/
structure IsKept (name : Text) : Prop where
  stripped : Text.strip name = name
  uncommented : uncomment name = name
  not_string : ∀ value, kinds rule name ≠ [.string value]

theorem reread_eq_iff {name : Text} : reread name = name ↔ IsKept name := by
  constructor
  · intro h
    have hstring : ∀ value, kinds rule name ≠ [.string value] := by
      intro value hvalue
      have hshort : name = value := by
        rw [← h, reread, hvalue]
      have hmem : Kind.string value ∈ kinds rule name := by
        rw [hvalue]
        exact List.mem_singleton_self _
      obtain ⟨c, r, hsuffix, -, hk⟩ := exists_rule_of_mem_kinds hmem
      have hcase := ruleCase c r
      generalize rule c r = found at hcase hk
      cases hcase with
      | string hc =>
        cases hk
        have hquote : '"' ∈ name := hc ▸ hsuffix.subset List.mem_cons_self
        rw [hshort] at hquote
        exact (Text.isQuotable_iff.1 (Text.isQuotable_quoted r)).1 hquote
      | plain hr hw hplain =>
        cases hk
        exact hplain
      | _ => cases hk
    rw [reread_of_ne_string hstring, freed] at h
    have hlen := congrArg List.length h
    have hcut := (prefix_uncommentFrom false name).length_le
    have hstrip := Text.length_strip_le (uncomment name)
    have huncommented : uncomment name = name :=
      (prefix_uncommentFrom false name).eq_of_length (Nat.le_antisymm hcut (hlen ▸ hstrip))
    rw [huncommented] at h
    exact ⟨h, huncommented, hstring⟩
  · intro h
    rw [reread_of_ne_string h.not_string, freed, h.uncommented, h.stripped]

/-! ### What comes back -/

section

variable {d : Diagram} (hd : d.Coherent)
include hd

/-- Only participants of the diagram are mentioned in its text. -/
private theorem mem_keys_statements {k : Text} (h : k ∈ (Draft.ofStatements d.statements).participants.keys) :
    k ∈ d.participants.map Participant.key := by
  have hkeyOf : ∀ {id}, id ∈ d.participants.map Participant.id → d.keyOf id ∈ d.participants.map Participant.key := by
    intro id hid
    obtain ⟨p, hp, rfl⟩ := List.mem_map.1 hid
    rw [Diagram.keyOf_id hd hp]
    exact List.mem_map_of_mem hp
  obtain ⟨st, hst, hk⟩ := Draft.mem_keys_ofStatements h
  rcases List.mem_append.1 hst with hst | hst
  · obtain ⟨p, hp, rfl⟩ := List.mem_map.1 hst
    rw [List.mem_singleton.1 hk]
    exact List.mem_map_of_mem (Diagram.mem_sortedParticipants.1 hp)
  · obtain ⟨i, hi, rfl⟩ := List.mem_map.1 hst
    have hi := Diagram.mem_timeline.1 hi
    cases i with
    | message m =>
      obtain ⟨hsource, htarget⟩ := hd.message_ends m hi
      simp only [Happening.statement, Statement.keys, List.mem_cons, List.not_mem_nil, or_false] at hk
      rcases hk with rfl | rfl
      · exact hkeyOf hsource
      · exact hkeyOf htarget
    | note n =>
      obtain ⟨id, hid, rfl⟩ := List.mem_map.1 hk
      exact hkeyOf ((hd.note_participants n hi).2 hid)
    | activate a =>
      rw [List.mem_singleton.1 hk]
      exact hkeyOf (hd.activation_participant a hi)
    | deactivate a stop =>
      rw [List.mem_singleton.1 hk]
      exact hkeyOf (hd.activation_participant a hi.1)
    | _ => cases hk

/-- If as many participants come back as there are, no two of them share a key. -/
private theorem nodup_keys_of_length
    (hlen : (Draft.ofStatements d.statements).participants.length = d.participants.length) :
    (d.participants.map Participant.key).Nodup := by
  have hnodup := (Draft.resolved_ofStatements d.statements).keys
  have hsub := hnodup.subperm fun k hk => mem_keys_statements hd hk
  refine (hsub.perm_of_length_le ?_).nodup_iff.1 hnodup
  rw [List.length_map, Keyed.keys, List.length_map, hlen]

end

/-- Behind the declarations no participant changes. -/
private theorem prefix_statements {d : Diagram} (hkeys : (d.participants.map Participant.key).Nodup) :
    (d.sortedParticipants.mapIdx fun i p => (p.key, p.reread i)) <+:
      (Draft.ofStatements d.statements).participants := by
  have hmention : ∀ (e : Draft) (key : Text), e.participants <+: (e.mention key).participants :=
    fun e key => Keyed.prefix_upsert fun _ => rfl
  have hmentions : ∀ (keys : List Text) (e : Draft), e.participants <+: (keys.foldl Draft.mention e).participants := by
    intro keys
    induction keys with
    | nil => exact fun e => List.prefix_refl _
    | cons key keys ih => exact fun e => (hmention e key).trans (ih _)
  have hadd : ∀ (e : Draft) (h : Happening),
      e.participants <+: (e.add (h.statement d.keyOf)).participants := by
    intro e h
    cases h with
    | message m => exact (hmention _ _).trans (hmention _ _)
    | note n => exact hmentions _ e
    | opening b => exact List.prefix_refl _
    | branch b s =>
      rw [Happening.statement, Draft.add]
      split <;> exact List.prefix_refl _
    | closing b =>
      rw [Happening.statement, Draft.add, Draft.participants_close]
    | activate a => exact hmention _ _
    | deactivate a stop =>
      rw [Happening.statement, Draft.add]
      split <;> exact hmention _ _
  have hrun : ∀ (hs : List Happening) (e : Draft),
      e.participants <+: ((hs.map (Happening.statement d.keyOf)).foldl Draft.add e).participants := by
    intro hs
    induction hs with
    | nil => exact fun e => List.prefix_refl _
    | cons h hs ih => exact fun e => (hadd e h).trans (ih _)
  have hsorted : (d.sortedParticipants.map Participant.key).Nodup :=
    ((sortBy_perm _ d.participants).map _).nodup_iff.2 hkeys
  rw [Draft.ofStatements, Draft.participants_closeAll, Diagram.statements, List.foldl_append,
    Diagram.foldl_declarations hsorted]
  exact hrun d.timeline { participants := d.sortedParticipants.mapIdx fun i p => (p.key, p.reread i) }

/-! ### Diagrams that are kept -/

/-- Every participant of the diagram is read back from its line: no two share a key, and what stands behind `as` is
kept. -/
structure Diagram.Keeps (d : Diagram) : Prop where
  keys : (d.participants.map Participant.key).Nodup
  names : ∀ p ∈ d.participants, p.key ≠ p.name → IsKept p.name

theorem Participant.Named.kept_iff {p : Participant} {key : Text} (h : p.Named key) (hne : p.key ≠ p.name) :
    p.Kept ↔ IsKept p.name := by
  have hname : p.name ≠ [] := by
    rcases h.called with ⟨hshort, -⟩ | ⟨-, hname⟩
    · exact absurd (by rw [Participant.key, hshort]) hne
    · exact hname
  rw [← reread_eq_iff, Participant.Kept, p.display?_eq, if_neg hne, Option.bind_some, redisplay]
  split
  · rename_i hnil
    rw [hnil]
    exact iff_of_false (by simp) (Ne.symm hname)
  · exact Option.some_inj

section

variable {stack : Stack} {s : Text} {d : Diagram} (h : (read stack s).outcome = .ok d)
include h

/-- If the participants that come back are the same, they were all read back from their lines. -/
private theorem keeps_of_participants
    (hsame : (Draft.ofStatements d.statements).toDiagram.participants.map Participant.shown =
      d.participants.map Participant.shown) : d.Keeps := by
  have hordered := ordered_of_read h
  have hlen := congrArg List.length hsame
  rw [List.length_map, List.length_map, Draft.toDiagram, List.length_map] at hlen
  have hkeys := nodup_keys_of_length (hordered.coherent (note_participants_ne_nil_of_read h)) hlen
  refine ⟨hkeys, ?_⟩
  intro p hp hne
  obtain ⟨key, hnamed⟩ := named_of_read h p hp
  obtain ⟨i, hi⟩ := List.mem_iff_getElem?.1 hp
  have hshown := congrArg (fun l => l[i]?) hsame
  -- the participant that comes back in the place of `p` is the one that is read from the line of `p`
  obtain ⟨more, hmore⟩ := prefix_statements hkeys
  have hlt := (List.getElem?_eq_some_iff.1 hi).1
  simp only [Draft.toDiagram, ← hmore, List.map_append, List.getElem?_map, hi, hordered.sortedParticipants_eq,
    Option.map_some] at hshown
  rw [List.getElem?_append_left (by simpa using hlt)] at hshown
  simp only [List.getElem?_map, List.getElem?_mapIdx, hi, Option.map_some, Option.some.injEq, Participant.shown,
    Prod.mk.injEq] at hshown
  obtain ⟨-, -, hname, -⟩ := hshown
  rw [← hnamed.kept_iff hne, Participant.Kept]
  simp only [Participant.reread, p.display?_eq, if_neg hne, Option.bind_some] at hname ⊢
  cases hread : redisplay p.name with
  | none =>
    rw [hread] at hname
    exact absurd hname hne
  | some name =>
    rw [hread] at hname
    exact congrArg some hname

/-- The diagram of a text can be read again when it is written.  It comes back, and is written in the same way again,
if and only if every participant is read back from its line. -/
theorem read_write_iff_kept (hquote : ∀ p ∈ d.participants, '"' ∉ p.key) (size : Int) :
    ∃ e, (read stack (d.write size)).outcome = .ok e ∧ ((d.Agrees e ∧ e.write size = d.write size) ↔ d.Keeps) := by
  have hordered := ordered_of_read h
  have hd := hordered.coherent (note_participants_ne_nil_of_read h)
  have hs := free_of_read h hquote
  have hroom := nestsWithin_of_read h
  refine ⟨_, read_write hd hs hroom size, ?_⟩
  constructor
  · rintro ⟨hagrees, -⟩
    exact keeps_of_participants h hagrees.participants.symm
  · intro hkeeps
    have hkept : ∀ p ∈ d.participants, p.Kept := by
      intro p hp
      obtain ⟨key, hnamed⟩ := named_of_read h p hp
      by_cases hname : p.key = p.name
      · rw [Participant.Kept, p.display?_eq, if_pos hname]
        rfl
      · exact (hnamed.kept_iff hname).2 (hkeeps.names p hp hname)
    have hranked := read_write_of_kept hd hs hkeeps.keys hkept hroom size
    rw [read_write hd hs hroom size] at hranked
    rw [Except.ok.inj hranked]
    have hagrees := hordered.agrees_ranked (sorted_of_read h)
    exact ⟨hagrees, (hagrees.write_eq size).symm⟩

end

/-- The diagram of a text with names in quotes and in the open. -/
def visit : Diagram where
  participants := [
    { id := .minted 0, name := "shop clerk".toList, kind := .actor, shortName := some "end".toList, order := 0 },
    { id := .minted 1, name := "the \"other\" side".toList, shortName := some "B".toList, order := 1 }]
  messages := [
    { source := .minted 1, target := .minted 0, label := "say \"100 %% sure\"".toList, order := 1 }]
  activations := [{ participant := .minted 1, start := 0, stop := some 2 }]

/-- The text of this visit. -/
def visitText : Text :=
  ("sequenceDiagram\nactor \"end\" as \"shop clerk\"\nparticipant B as the \"other\" side %% here\n" ++
    "activate B\nB->>\"end\": say \"100 %% sure\" %% or not\ndeactivate B").toList

theorem read_write_visit : (read {} visitText).outcome = .ok visit ∧ (∀ p ∈ visit.participants, '"' ∉ p.key) ∧
    ∃ e, (read {} (visit.write 4)).outcome = .ok e ∧ ((visit.Agrees e ∧ e.write 4 = visit.write 4) ↔ visit.Keeps) := by
  have h := eq_ok_of_toOption (x := (read {} visitText).outcome) (a := visit) (by decide +kernel)
  have hquote : ∀ p ∈ visit.participants, '"' ∉ p.key := by decide
  exact ⟨h, hquote, read_write_iff_kept h hquote 4⟩

/-- Blanks around a name in quotes are lost when it is read again. -/
theorem read_write_blanks : ¬ ∀ s d, (read {} s).outcome = .ok d → ∃ e, (read {} (d.write 4)).outcome = .ok e ∧
    d.Agrees e ∧ e.write 4 = d.write 4 := by
  intro hall
  have hread := eq_ok_of_toOption (x := (read {} "sequenceDiagram\nparticipant A as \" x \"".toList).outcome)
    (a := { participants := [⟨.minted 0, " x ".toList, .participant, some "A".toList, 0⟩] }) (by decide +kernel)
  have hagain := eq_ok_of_toOption (x := (read {} "sequenceDiagram\n    participant A as  x ".toList).outcome)
    (a := { participants := [⟨.minted 0, "x".toList, .participant, some "A".toList, 0⟩] }) (by decide +kernel)
  have hwrite : Diagram.write 4 { participants := [⟨.minted 0, " x ".toList, .participant, some "A".toList, 0⟩] } =
      "sequenceDiagram\n    participant A as  x ".toList := by decide +kernel
  obtain ⟨e, he, hagrees, -⟩ := hall _ _ hread
  rw [hwrite, hagain] at he
  cases he
  exact absurd hagrees.participants (by decide)

end DiagramText.Sequence

import DiagramText.Proofs.Sequence.Numbering

/-!
# The participants of a draft

Participants are numbered in the order in which they are mentioned first, and messages, notes and activations refer to
participants by these numbers (`Draft.Resolved`).  Every statement keeps that (`Draft.Resolved.add`).  There are no
participants but those that the statements mention (`Draft.mem_keys_ofStatements`).
-/

namespace DiagramText.Sequence

/-- The participants that a statement mentions. -/
def Statement.keys : Statement → List Text
  | participant _ key _ => [key]
  | message source target _ _ => [source, target]
  | note _ keys _ => keys
  | activate key => [key]
  | deactivate key => [key]
  | _ => []

namespace Draft

variable {d : Draft}

/-! ### Runs -/

section

variable {P : Draft → Prop}

theorem closeAll_induction (hclose : ∀ {d}, P d → P d.close) (h : P d) : P d.closeAll := by
  have hrun : ∀ (l : List Nat) {d : Draft}, P d → P (l.foldl (fun d _ => d.close) d) := by
    intro l
    induction l with
    | nil => exact fun h => h
    | cons i l ih => exact fun h => ih (hclose h)
  exact hrun d.inside h

/-- What holds of the empty draft, and is kept by each statement and by the end of a block, holds in the end. -/
theorem ofStatements_induction {sts : List Statement} (hempty : P {})
    (hadd : ∀ st ∈ sts, ∀ {d}, P d → P (d.add st)) (hclose : ∀ {d}, P d → P d.close) : P (ofStatements sts) := by
  have hrun : ∀ (sts : List Statement), (∀ st ∈ sts, ∀ {d}, P d → P (d.add st)) →
      ∀ {d : Draft}, P d → P (sts.foldl Draft.add d) := by
    intro sts
    induction sts with
    | nil => exact fun _ _ h => h
    | cons st sts ih =>
      intro hadd d h
      rw [List.forall_mem_cons] at hadd
      exact ih hadd.2 (hadd.1 h)
  exact closeAll_induction hclose (hrun sts hadd hempty)

end

/-! ### References -/

/-- The id of a participant. -/
def Known (d : Draft) (id : Id) : Prop := ∃ i < d.participants.length, id = .minted i

theorem Known.mono {d e : Draft} (hle : d.participants.length ≤ e.participants.length) {id : Id} (h : d.Known id) :
    e.Known id := by
  obtain ⟨i, hi, rfl⟩ := h
  exact ⟨i, by omega, rfl⟩

/-- Participants are numbered as they come, and whatever refers to one refers to a participant. -/
structure Resolved (d : Draft) : Prop where
  keys : d.participants.keys.Nodup
  numbered : d.participants.map (fun p => (p.2.id, p.2.order)) =
    (List.range d.participants.length).map fun i : Nat => (Id.minted i, (i : Int))
  messages : ∀ m ∈ d.messages, d.Known m.source ∧ d.Known m.target
  notes : ∀ n ∈ d.notes, ∀ id ∈ n.participants, d.Known id
  activations : ∀ a ∈ d.activations, d.Known a.participant

theorem length_update (d : Draft) (key : Text) (f : Participant → Participant) :
    d.participants.length ≤ (d.update key f).participants.length := by
  rw [update, Keyed.length_upsert]
  split <;> omega

/-- A participant that has been mentioned is known. -/
theorem known_id {key : Text} (h : key ∈ d.participants.keys) : d.Known (d.id key) := by
  have hlt := List.idxOf_lt_length_of_mem h
  exact ⟨_, by rwa [Keyed.keys, List.length_map] at hlt, rfl⟩

theorem mem_keys_update (d : Draft) (key : Text) (f : Participant → Participant) (k : Text) :
    k ∈ (d.update key f).participants.keys ↔ k = key ∨ k ∈ d.participants.keys := by
  rw [update, Keyed.keys_upsert]
  split
  · rename_i hkey
    constructor
    · exact Or.inr
    · rintro (rfl | h)
      · exact hkey
      · exact h
  · simp [or_comm]

theorem mem_keys_mention (d : Draft) (key k : Text) :
    k ∈ (d.mention key).participants.keys ↔ k = key ∨ k ∈ d.participants.keys := mem_keys_update d key _ k

theorem mem_keys_foldl_mention (d : Draft) (keys : List Text) (k : Text) :
    k ∈ (keys.foldl mention d).participants.keys ↔ k ∈ keys ∨ k ∈ d.participants.keys := by
  induction keys generalizing d with
  | nil => simp
  | cons key keys ih =>
    rw [List.foldl_cons, ih, mem_keys_mention, List.mem_cons]
    tauto

namespace Resolved

theorem update (h : d.Resolved) (key : Text) {f : Participant → Participant}
    (hf : ∀ p, (f p).id = p.id ∧ (f p).order = p.order) : (d.update key f).Resolved := by
  have hle := length_update d key f
  refine ⟨Keyed.nodup_keys_upsert h.keys, ?_, fun m hm => ?_, fun n hn id hid => (h.notes n hn id hid).mono hle,
    fun a ha => (h.activations a ha).mono hle⟩
  · have hview := Keyed.map_upsert (g := fun p : Participant => (p.id, p.order))
      (f := fun old => f (old.getD
        { id := .minted d.participants.length, name := key, order := d.participants.length }))
      (fun p => by simp [hf p]) key d.participants
    rw [Draft.update, Keyed.length_upsert]
    dsimp only
    rw [hview, h.numbered]
    split
    · rfl
    · rw [List.range_succ, List.map_append, List.map_singleton, Option.getD_none, (hf _).1, (hf _).2]
  · exact ⟨(h.messages m hm).1.mono hle, (h.messages m hm).2.mono hle⟩

theorem foldl_mention (h : d.Resolved) (keys : List Text) : (keys.foldl mention d).Resolved := by
  induction keys generalizing d with
  | nil => exact h
  | cons key keys ih => exact ih (h.update key fun _ => ⟨rfl, rfl⟩)

/-- A statement keeps a draft resolved. -/
theorem add (h : d.Resolved) (st : Statement) : (d.add st).Resolved := by
  have hmention : ∀ {d : Draft} (key : Text), d.Resolved → (d.mention key).Resolved :=
    fun key h => h.update key fun _ => ⟨rfl, rfl⟩
  cases st with
  | participant kind key display =>
    rw [Draft.add]
    exact h.update key fun _ => ⟨rfl, rfl⟩
  | message source target type label =>
    have hboth := hmention target (hmention source h)
    have hsource : source ∈ ((d.mention source).mention target).participants.keys := by
      rw [mem_keys_mention, mem_keys_mention]
      exact Or.inr (Or.inl rfl)
    have htarget : target ∈ ((d.mention source).mention target).participants.keys := by
      rw [mem_keys_mention]
      exact Or.inl rfl
    exact { hboth with
      messages := by
        intro m hm
        rcases List.mem_append.1 hm with hm | hm
        · exact hboth.messages m hm
        · rw [List.mem_singleton.1 hm]
          exact ⟨known_id hsource, known_id htarget⟩ }
  | note position keys text =>
    have hall := h.foldl_mention keys
    exact { hall with
      notes := by
        intro n hn
        rcases List.mem_append.1 hn with hn | hn
        · exact hall.notes n hn
        · intro id hid
          rw [List.mem_singleton.1 hn] at hid
          obtain ⟨key, hkey, rfl⟩ := List.mem_map.1 hid
          exact known_id ((mem_keys_foldl_mention d keys key).2 (Or.inl hkey)) }
  | opening kind label place => exact { h with }
  | branch label =>
    rw [Draft.add]
    split
    · exact h
    · exact { h with }
  | closing =>
    rw [Draft.add, Draft.close]
    split
    · exact h
    · exact { h with }
  | activate key =>
    have hone := hmention key h
    exact { hone with
      activations := by
        intro a ha
        rcases List.mem_append.1 ha with ha | ha
        · exact hone.activations a ha
        · rw [List.mem_singleton.1 ha]
          exact known_id ((mem_keys_mention d key key).2 (Or.inl rfl)) }
  | deactivate key =>
    have hone := hmention key h
    rw [Draft.add]
    split
    · rename_i as hclose
      obtain ⟨l, a, r, has, rfl, -⟩ := closeLast_eq_some hclose
      have hold := hone.activations
      rw [has, List.forall_mem_append, List.forall_mem_cons] at hold
      exact { hone with
        activations := by
          rw [List.forall_mem_append, List.forall_mem_cons]
          exact hold }
    · exact hone
  | faulty e => exact h
  | skippedLine kind place => exact h
  | noArrow name place => exact h

end Resolved

/-- What a list of statements says refers to participants only. -/
theorem resolved_ofStatements (sts : List Statement) : (ofStatements sts).Resolved := by
  have hempty : ({} : Draft).Resolved := by
    constructor <;> simp
  exact ofStatements_induction hempty (fun st _ _ h => h.add st) fun h => h.add .closing

/-! ### Who is mentioned -/

/-- Participants come into being by being mentioned only. -/
theorem mem_keys_add {st : Statement} {k : Text} (h : k ∈ (d.add st).participants.keys) :
    k ∈ st.keys ∨ k ∈ d.participants.keys := by
  have hmention : ∀ {key}, k ∈ (d.mention key).participants.keys → k ∈ [key] ∨ k ∈ d.participants.keys := by
    intro key hk
    rw [List.mem_singleton]
    exact (mem_keys_mention d key k).1 hk
  cases st with
  | participant kind key display =>
    rw [Draft.add, mem_keys_update] at h
    rwa [Statement.keys, List.mem_singleton]
  | message source target type label =>
    have hk := (mem_keys_mention _ target k).1 h
    rw [mem_keys_mention] at hk
    simp only [Statement.keys, List.mem_cons, List.not_mem_nil, or_false]
    tauto
  | note position keys text => exact (mem_keys_foldl_mention d keys k).1 h
  | activate key => exact hmention h
  | deactivate key =>
    rw [Draft.add] at h
    split at h <;> exact hmention h
  | branch label =>
    rw [Draft.add] at h
    split at h <;> exact Or.inr h
  | closing =>
    rw [Draft.add, Draft.close] at h
    split at h <;> exact Or.inr h
  | _ => exact Or.inr h

theorem participants_close (d : Draft) : d.close.participants = d.participants := by
  unfold close
  split <;> rfl

theorem participants_closeAll (d : Draft) : d.closeAll.participants = d.participants :=
  closeAll_induction (P := fun e => e.participants = d.participants) (fun h => (participants_close _).trans h) rfl

theorem mem_keys_ofStatements {sts : List Statement} {k : Text} :
    k ∈ (ofStatements sts).participants.keys → ∃ st ∈ sts, k ∈ st.keys := by
  refine ofStatements_induction (P := fun d => k ∈ d.participants.keys → ∃ st ∈ sts, k ∈ st.keys) ?_ ?_ ?_
  · exact fun hk => absurd hk List.not_mem_nil
  · intro st hst d h hk
    rcases mem_keys_add hk with hk | hk
    · exact ⟨st, hst, hk⟩
    · exact h hk
  · intro d h hk
    rw [participants_close] at hk
    exact h hk

end Draft

end DiagramText.Sequence

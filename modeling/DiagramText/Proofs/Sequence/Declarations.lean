import DiagramText.Proofs.Keyed
import DiagramText.Proofs.Sequence.References

/-!
# Names that declarations give

A declaration calls its participant by a name (`add_participant`).  No other statement looks at that name (`add_call`),
and the next declaration of the participant calls it anew (`add_declaration_call`).  So the name can be seen in the
diagram exactly if the participant is not declared again (`toDiagram_participant_iff`).
-/

namespace DiagramText.Sequence

/-- The statement declares the participant of the given key. -/
def Statement.Declares (key : Text) (st : Statement) : Prop := ∃ kind name, st = .participant kind key name

namespace Draft

/-- The participant by another name, or by its key if there is none. -/
def called (key : Text) (name : Option Text) (p : Participant) : Participant :=
  { p with name := name.getD key, shortName := name.map fun _ => key }

/-- Calls the participant of the given key by a name. -/
def call (d : Draft) (key : Text) (name : Option Text) : Draft := d.update key (called key name)

/-- The participants after a change; a new one has the number `n`. -/
private def changed (n : Nat) (key : Text) (f : Participant → Participant) (l : Keyed Text Participant) :
    Keyed Text Participant :=
  l.upsert key fun old => f (old.getD { id := .minted n, name := key, order := n })

theorem add_participant (d : Draft) (kind : ParticipantKind) (key : Text) (name : Option Text) :
    d.add (.participant kind key name) = (d.update key fun p => { p with kind }).call key name := by
  rw [call, update, update, Keyed.upsert_upsert]
  rfl

variable {d : Draft} {key : Text} (hkey : key ∈ d.participants.keys)

theorem mem_keys_add_of_mem (st : Statement) {k : Text} (h : k ∈ d.participants.keys) :
    k ∈ (d.add st).participants.keys := by
  cases st with
  | participant kind key name => exact (mem_keys_update d key _ k).2 (Or.inr h)
  | message source target type label =>
    exact (mem_keys_mention _ target k).2 (Or.inr ((mem_keys_mention d source k).2 (Or.inr h)))
  | note position keys text => exact (mem_keys_foldl_mention d keys k).2 (Or.inr h)
  | activate key => exact (mem_keys_mention d key k).2 (Or.inr h)
  | deactivate key =>
    rw [Draft.add]
    split <;> exact (mem_keys_mention d key k).2 (Or.inr h)
  | branch label =>
    rw [Draft.add]
    split <;> exact h
  | closing => rwa [Draft.add, participants_close]
  | _ => exact h

include hkey

theorem length_call (name : Option Text) : (d.call key name).participants.length = d.participants.length := by
  rw [call, update, Keyed.length_upsert, if_pos hkey]

theorem id_call (name : Option Text) (k : Text) : (d.call key name).id k = d.id k := by
  rw [id, id, call, update, Keyed.keys_upsert, if_pos hkey]

/-- A participant who has been mentioned and another one can be changed in any order. -/
theorem update_call {k : Text} (hk : key ≠ k) (f : Participant → Participant) (name : Option Text) :
    (d.call key name).update k f = (d.update k f).call key name := by
  have hkey' : key ∈ (d.update k f).participants.keys := (mem_keys_update d k f key).2 (Or.inr hkey)
  refine congrArg (fun participants => { d with participants }) ?_
  calc changed (d.call key name).participants.length k f
        (changed d.participants.length key (called key name) d.participants)
    _ = changed d.participants.length k f (changed d.participants.length key (called key name) d.participants) := by
      rw [length_call hkey]
    _ = changed d.participants.length key (called key name) (changed d.participants.length k f d.participants) :=
      Keyed.upsert_comm hk _ _ hkey
    _ = changed (d.update k f).participants.length key (called key name)
        (changed d.participants.length k f d.participants) :=
      Keyed.upsert_congr hkey' fun _ => rfl

theorem mention_of_mem : d.mention key = d := by
  obtain ⟨p, hp⟩ := Keyed.mem_keys_iff.1 hkey
  rw [mention, update]
  show { d with participants := _ } = d
  rw [Keyed.upsert_of_get? hp rfl]

theorem mention_call (k : Text) (name : Option Text) : (d.call key name).mention k = (d.mention k).call key name := by
  by_cases hk : key = k
  · subst hk
    rw [mention_of_mem hkey, mention_of_mem]
    exact (mem_keys_update d key _ key).2 (Or.inl rfl)
  · exact update_call hkey hk _ name

theorem foldl_mention_call (keys : List Text) (name : Option Text) :
    keys.foldl mention (d.call key name) = (keys.foldl mention d).call key name := by
  induction keys generalizing d with
  | nil => rfl
  | cons k keys ih =>
    rw [List.foldl_cons, mention_call hkey, ih ((mem_keys_mention d k key).2 (Or.inr hkey))]
    rfl

omit hkey in
private theorem close_call (d : Draft) (key : Text) (name : Option Text) :
    (d.call key name).close = d.close.call key name := by
  rcases d with ⟨participants, messages, notes, activations, blocks, _ | ⟨i, inside⟩, next⟩ <;> rfl

omit hkey in
theorem closeAll_call (d : Draft) (key : Text) (name : Option Text) :
    (d.call key name).closeAll = d.closeAll.call key name := by
  have hrun : ∀ (l : List Nat) (d : Draft),
      l.foldl (fun d _ => d.close) (d.call key name) = (l.foldl (fun d _ => d.close) d).call key name := by
    intro l
    induction l with
    | nil => exact fun d => rfl
    | cons i l ih =>
      intro d
      rw [List.foldl_cons, List.foldl_cons, close_call, ih]
  exact hrun d.inside d

/-- Other statements do not look at the name. -/
theorem add_call {st : Statement} (hst : ¬ st.Declares key) (name : Option Text) :
    (d.call key name).add st = (d.add st).call key name := by
  cases st with
  | participant kind k display =>
    have hk : key ≠ k := by
      rintro rfl
      exact hst ⟨kind, display, rfl⟩
    exact update_call hkey hk
      (fun p => { p with kind, name := display.getD k, shortName := display.map fun _ => k }) name
  | message source target type label =>
    have hkey' := (mem_keys_mention d source key).2 (Or.inr hkey)
    have hkey'' := (mem_keys_mention (d.mention source) target key).2 (Or.inr hkey')
    simp only [Draft.add, mention_call hkey, mention_call hkey', id_call hkey'']
    rfl
  | note position keys text =>
    have hkey' := (mem_keys_foldl_mention d keys key).2 (Or.inr hkey)
    have hids : ((keys.foldl mention d).call key name).id = (keys.foldl mention d).id := by
      funext k
      exact id_call hkey' name k
    simp only [Draft.add, foldl_mention_call hkey, hids]
    rfl
  | opening kind label place => rfl
  | branch label =>
    rcases d with ⟨participants, messages, notes, activations, blocks, _ | ⟨i, inside⟩, next⟩ <;> rfl
  | closing => exact close_call d key name
  | activate k =>
    have hkey' := (mem_keys_mention d k key).2 (Or.inr hkey)
    simp only [Draft.add, mention_call hkey, id_call hkey']
    rfl
  | deactivate k =>
    have hkey' := (mem_keys_mention d k key).2 (Or.inr hkey)
    simp only [Draft.add, mention_call hkey, id_call hkey']
    have hactivations : ((d.mention k).call key name).activations = (d.mention k).activations := rfl
    have hnext : ((d.mention k).call key name).next = (d.mention k).next := rfl
    rw [hactivations, hnext]
    split <;> rfl
  | _ => rfl

omit hkey in
/-- Another declaration calls the participant anew. -/
theorem add_declaration_call {st : Statement} (hst : st.Declares key) (name : Option Text) :
    (d.call key name).add st = d.add st := by
  obtain ⟨kind, name', rfl⟩ := hst
  rw [add, call, update, update, Keyed.upsert_upsert]
  rfl

theorem foldl_add_call {sts : List Statement} (hsts : ∀ st ∈ sts, ¬ st.Declares key) (name : Option Text) :
    sts.foldl add (d.call key name) = (sts.foldl add d).call key name := by
  induction sts generalizing d with
  | nil => rfl
  | cons st sts ih =>
    rw [List.forall_mem_cons] at hsts
    rw [List.foldl_cons, add_call hkey hsts.1, ih (mem_keys_add_of_mem st hkey) hsts.2]
    rfl

theorem foldl_add_call_of_declared {sts : List Statement} (hsts : ∃ st ∈ sts, st.Declares key) (name : Option Text) :
    sts.foldl add (d.call key name) = sts.foldl add d := by
  induction sts generalizing d with
  | nil => simp at hsts
  | cons st sts ih =>
    rw [List.foldl_cons, List.foldl_cons]
    by_cases hst : st.Declares key
    · rw [add_declaration_call hst]
    · rw [add_call hkey hst, ih (mem_keys_add_of_mem st hkey)]
      obtain ⟨st', hmem, hst'⟩ := hsts
      obtain rfl | hmem := List.mem_cons.1 hmem
      · exact absurd hst' hst
      · exact ⟨st', hmem, hst'⟩

theorem mem_keys_foldl_add (sts : List Statement) : key ∈ (sts.foldl add d).participants.keys := by
  induction sts generalizing d with
  | nil => exact hkey
  | cons st sts ih => exact ih (mem_keys_add_of_mem st hkey)

/-- The name can be seen in the diagram. -/
theorem toDiagram_call_iff {name name' : Option Text} :
    (d.call key name).toDiagram = (d.call key name').toDiagram ↔ name = name' := by
  refine ⟨fun h => ?_, fun h => by rw [h]⟩
  have hkeys : (d.call key name).participants.keys = (d.call key name').participants.keys := by
    rw [call, call, update, update, Keyed.keys_upsert, Keyed.keys_upsert]
  have hvalues : (d.call key name).participants.map Prod.snd = (d.call key name').participants.map Prod.snd :=
    congrArg Diagram.participants h
  have hsame : (d.call key name).participants = (d.call key name').participants :=
    (List.zip_of_prod hkeys hvalues).trans (List.zip_of_prod rfl rfl).symm
  obtain ⟨p, hp⟩ := Keyed.mem_keys_iff.1 hkey
  have hget : ∀ name, Keyed.get? (d.call key name).participants key = some (called key name p) := by
    intro name
    rw [call, update, Keyed.get?_upsert, if_pos rfl, hp]
    rfl
  have hcalled : called key name p = called key name' p := by
    rw [← Option.some_inj, ← hget, ← hget, hsame]
  have hname := congrArg Participant.name hcalled
  have hshort := congrArg Participant.shortName hcalled
  cases name <;> cases name' <;> simp_all [called]

omit hkey in
/-- The name that a declaration gives can be seen in the diagram, unless the participant is declared again. -/
theorem toDiagram_participant_iff {before later : List Statement} {kind : ParticipantKind} {name name' : Option Text} :
    (ofStatements (before ++ .participant kind key name :: later)).toDiagram =
        (ofStatements (before ++ .participant kind key name' :: later)).toDiagram ↔
      name = name' ∨ ∃ st ∈ later, st.Declares key := by
  let D := (before.foldl add {}).update key fun p => { p with kind }
  have hkey : key ∈ D.participants.keys := (mem_keys_update _ key _ key).2 (Or.inl rfl)
  have hD : ∀ name, ofStatements (before ++ .participant kind key name :: later) =
      (later.foldl add (D.call key name)).closeAll := by
    intro name
    rw [ofStatements, List.foldl_append, List.foldl_cons, add_participant]
  rw [hD, hD]
  by_cases hlater : ∃ st ∈ later, st.Declares key
  · rw [foldl_add_call_of_declared hkey hlater, foldl_add_call_of_declared hkey hlater]
    simp [hlater]
  · have hnone : ∀ st ∈ later, ¬ st.Declares key := fun st hst h => hlater ⟨st, hst, h⟩
    have hkey' : key ∈ (later.foldl add D).closeAll.participants.keys := by
      rw [participants_closeAll]
      exact mem_keys_foldl_add hkey later
    rw [foldl_add_call hkey hnone, foldl_add_call hkey hnone, closeAll_call, closeAll_call, toDiagram_call_iff hkey',
      or_iff_left hlater]

end Draft

end DiagramText.Sequence

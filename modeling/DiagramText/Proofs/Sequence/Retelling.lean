import DiagramText.Proofs.Sequence.Branches
import DiagramText.Proofs.Sequence.Declarations
import DiagramText.Proofs.Sequence.RoundTrip

/-!
# What is read of a script

The lines of a script are read with ascending numbers (`Clocked`).  Messages and notes get the numbers of their lines,
and a block begins, goes on and ends with the numbers of its lines (`Frame.retold`) if the line of every branch goes on
with its own block: a draft into which the first lines have been read is a `Sketch` of them.  So a diagram whose blocks
are `Branched` is read back with every branch, and with what stands in it (`Branched.branches_kept`).
-/

namespace DiagramText.Sequence

/-! ### Numbered lines -/

/-- A line that ends an activation.  It takes no number if no activation is open. -/
def Happening.isDeactivation : Happening → Bool
  | deactivate _ _ => true
  | _ => false

/-- Lines with ascending numbers up to `n`.  What follows the end of an activation may have the same number. -/
structure Clocked (lines : List (Happening × Int)) (n : Int) : Prop where
  below : ∀ l ∈ lines, l.2 ≤ n ∧ (l.1.isDeactivation = false → l.2 < n)
  ascending : lines.Pairwise fun k l => k.2 ≤ l.2 ∧ (k.1.isDeactivation = false → k.2 < l.2)

theorem Clocked.append {lines : List (Happening × Int)} {n m : Int} {h : Happening} (hl : Clocked lines n)
    (hle : n ≤ m) (hlt : h.isDeactivation = false → n < m) : Clocked (lines ++ [(h, n)]) m where
  below := by
    intro l hmem
    rcases List.mem_append.1 hmem with hmem | hmem
    · obtain ⟨hln, hlt'⟩ := hl.below l hmem
      exact ⟨Int.le_trans hln hle, fun hd => Int.lt_of_lt_of_le (hlt' hd) hle⟩
    · rw [List.mem_singleton.1 hmem]
      exact ⟨hle, hlt⟩
  ascending := by
    refine List.pairwise_append.2 ⟨hl.ascending, List.pairwise_singleton _ _, ?_⟩
    intro k hk l hmem
    rw [List.mem_singleton.1 hmem]
    exact hl.below k hk

theorem Clocked.succ {lines : List (Happening × Int)} {n : Nat} (hl : Clocked lines n) (h : Happening) :
    Clocked (lines ++ [(h, (n : Int))]) ((n + 1 : Nat) : Int) :=
  hl.append (by omega) fun _ => by omega

/-- The messages that are read of some lines, in which `who` takes part. -/
def retoldMessages (who : Id → Id) (lines : List (Happening × Int)) : List (Message Id) :=
  lines.filterMap fun l => l.1.message?.map fun m => ⟨who m.source, who m.target, m.type, freed m.label, l.2⟩

/-- The notes that are read of some lines. -/
def retoldNotes (who : Id → Id) (lines : List (Happening × Int)) : List (Note Id) :=
  lines.filterMap fun l => l.1.note?.map fun n => ⟨freed n.text, n.position, n.participants.map who, l.2⟩

/-- The label that a line gives to a branch of the block, as it is read. -/
def Happening.labelOf? (b : Frame) : Happening → Option Text
  | opening c => if c = b then some (freed b.first.label) else none
  | branch c s => if c = b then some (freed s.label) else none
  | _ => none

@[simp] theorem Happening.labelOf?_opening (b : Frame) : (opening b).labelOf? b = some (freed b.first.label) :=
  if_pos rfl

@[simp] theorem Happening.labelOf?_branch (b : Frame) (s : Span) : (branch b s).labelOf? b = some (freed s.label) :=
  if_pos rfl

/-- The block that is read of its lines: each branch begins at its line, and the last one ends at the end line. -/
def Frame.retold (lines : List (Happening × Int)) (b : Frame) : Block where
  kind := b.kind
  branches := lines.filterMap fun l => (l.1.labelOf? b).map fun label => (label, l.2)
  stop := lines.findSome? fun l => if l.1 = .closing b then some l.2 else none

section

variable {lines : List (Happening × Int)} {h : Happening} {b : Frame} {n : Int}

/-- A line that is not about a block changes nothing in it. -/
private theorem retold_append (hlabel : h.labelOf? b = none) (hne : h ≠ .closing b) :
    b.retold (lines ++ [(h, n)]) = b.retold lines := by
  simp [Frame.retold, List.filterMap_append, List.findSome?_append, hlabel, hne]

private theorem retold_append_label {label : Text} (hlabel : h.labelOf? b = some label) :
    b.retold (lines ++ [(h, n)]) =
      { b.retold lines with branches := (b.retold lines).branches ++ [(label, n)] } := by
  have hne : h ≠ .closing b := by
    rintro rfl
    cases hlabel
  simp [Frame.retold, List.filterMap_append, List.findSome?_append, hlabel, hne]

private theorem retold_append_closing (hnot : .closing b ∉ lines.map Prod.fst) :
    b.retold (lines ++ [(.closing b, n)]) = { b.retold lines with stop := some n } := by
  have hnone : (lines.findSome? fun l => if l.1 = .closing b then some l.2 else none) = none := by
    rw [List.findSome?_eq_none_iff]
    intro l hl
    rw [if_neg]
    intro he
    exact hnot (he ▸ List.mem_map_of_mem hl)
  simp [Frame.retold, List.filterMap_append, List.findSome?_append, Happening.labelOf?, hnone]

/-- No line is about the block. -/
private theorem retold_of_none (hnone : ∀ i ∈ lines.map Prod.fst, i.labelOf? b = none ∧ i ≠ .closing b) :
    b.retold lines = ⟨b.kind, [], none⟩ := by
  rw [List.forall_mem_map] at hnone
  have hlabels : (lines.filterMap fun l => (l.1.labelOf? b).map fun label => (label, l.2)) = [] := by
    rw [List.filterMap_eq_nil_iff]
    intro l hl
    rw [(hnone l hl).1]
    rfl
  have hstop : (lines.findSome? fun l => if l.1 = .closing b then some l.2 else none) = none := by
    rw [List.findSome?_eq_none_iff]
    exact fun l hl => if_neg (hnone l hl).2
  simp only [Frame.retold, hlabels, hstop]

end

/-! ### The statements of the lines -/

namespace Diagram

theorem linked_known (d : Diagram) : d.known.Linked where
  message_ends m hm := of_decide_eq_true (List.mem_filter.1 hm).2
  note_participants n hn := by
    obtain ⟨hn, hne⟩ := List.mem_filter.1 hn
    obtain ⟨m, -, rfl⟩ := List.mem_map.1 hn
    exact ⟨of_decide_eq_true hne, fun id hid => of_decide_eq_true (List.mem_filter.1 hid).2⟩
  activation_participant a ha := of_decide_eq_true (List.mem_filter.1 ha).2

theorem Spelled.known {d : Diagram} (hs : d.Spelled) : d.known.Spelled :=
  { hs with
    message_label := fun m hm => hs.message_label m (List.mem_filter.1 hm).1
    note_text := by
      intro n hn
      obtain ⟨m, hm, rfl⟩ := List.mem_map.1 (List.mem_filter.1 hn).1
      exact hs.note_text m hm }

/-- The lines of the script read as their statements. -/
private theorem reads_script {d : Diagram} (hs : d.Spelled) {h : Happening} (hh : h ∈ d.script) :
    Reads (h.event d.nameOf).text (h.statement d.nameOf).freed := by
  have hkey : ∀ id ∈ d.participants.map Participant.id, Text.isQuotable (d.nameOf id) = true := by
    intro id hid
    obtain ⟨p, hp, hname⟩ := d.exists_nameOf hid
    rw [hname]
    exact hs.quotable p hp
  exact reads_event hs.known d.linked_known hkey (d.mem_script.1 hh)

/-- Where every branch goes on with its own block, the statements of the script fit the blocks that are open. -/
private theorem fitting_script {d : Diagram} (hl : d.Laminar)
    (hown : ∀ before b s after, d.script = before ++ .branch b s :: after → (openBehind before).head? = some b)
    {before after : List Happening} (hs : d.script = before ++ after) :
    Fitting ((openBehind before).map Frame.kind) (after.map (Happening.statement d.nameOf)) := by
  induction after generalizing before with
  | nil => trivial
  | cons h after ih =>
    have hnext : d.script = (before ++ [h]) ++ after := by
      rw [hs, List.append_assoc]
      rfl
    have hinside : (h.statement d.nameOf).inside ((openBehind before).map Frame.kind) =
        (openBehind (before ++ [h])).map Frame.kind := by
      rw [openBehind_append]
      cases h with
      | closing b => exact List.map_tail.symm
      | message | note | opening | branch | activate | deactivate => rfl
    refine ⟨?_, ?_⟩
    · cases h with
      | message | note | opening | activate | deactivate => trivial
      | closing b =>
        obtain ⟨rest, hrest⟩ := (hl.nest hs).top hl hs
        show (openBehind before).map Frame.kind ≠ []
        rw [hrest]
        exact List.cons_ne_nil _ _
      | branch b s =>
        obtain ⟨hb, hsb⟩ : b ∈ d.frames ∧ s ∈ b.more := of_script hs
        show ((openBehind before).map Frame.kind).head? = some .alt
        rw [List.head?_map, hown before b s after hs, Option.map_some, kind_of_more hb (List.ne_nil_of_mem hsb)]
    · rw [hinside]
      exact ih hnext

end Diagram

/-! ### Reading line by line -/

/-- A view of different elements that changes for one of them. -/
private theorem map_eq_modify_idxOf {α β : Type} [DecidableEq α] {f g : α → β} {k : β → β} {l : List α} (hl : l.Nodup)
    {a : α} (ha : a ∈ l) (h : ∀ x ∈ l, x ≠ a → g x = f x) (hk : g a = k (f a)) :
    l.map g = (l.map f).modify (l.idxOf a) k := by
  obtain ⟨m, r, rfl⟩ := List.append_of_mem ha
  have hdiff : ∀ x ∈ m ++ r, x ≠ a := by
    rintro x hx rfl
    exact (List.nodup_cons.1 (List.nodup_middle.1 hl)).1 hx
  have hm : a ∉ m := fun hmem => hdiff a (List.mem_append_left r hmem) rfl
  have hidx : (m ++ a :: r).idxOf a = m.length := by
    rw [List.idxOf_append_of_notMem hm, List.idxOf_cons_self, Nat.add_zero]
  rw [hidx]
  refine map_eq_modify (fun x hx => h x ?_ (hdiff x hx)) hk
  rw [List.mem_append, List.mem_cons]
  exact (List.mem_append.1 hx).imp_right Or.inr

namespace Draft

/-- Participants that are known do not change when they are mentioned. -/
private theorem foldl_mention_of_mem {D : Draft} {keys : List Text} (h : ∀ key ∈ keys, key ∈ D.participants.keys) :
    keys.foldl mention D = D := by
  induction keys with
  | nil => rfl
  | cons key keys ih =>
    rw [List.forall_mem_cons] at h
    rw [List.foldl_cons, mention_of_mem h.1, ih h.2]

end Draft

namespace Diagram

variable {d : Diagram}

/-- Who is meant by an id, among participants that go by their keys. -/
def who (d : Diagram) (ps : Keyed Text Participant) (id : Id) : Id := .minted (ps.keys.idxOf (d.nameOf id))

theorem opened_script_perm (d : Diagram) : (opened d.script).Perm d.frames := by
  have hperm : (opened d.script).Perm (opened d.known.happenings) := (sortBy_perm _ _).filterMap _
  rw [opened_happenings] at hperm
  exact hperm

theorem Laminar.nodup_opened (hl : d.Laminar) {before after : List Happening} (hs : d.script = before ++ after) :
    (opened before).Nodup := by
  have hnodup := (opened_script_perm d).nodup_iff.2 hl.nodup
  rw [hs, opened, List.filterMap_append, List.nodup_append] at hnodup
  exact hnodup.1

/-- No line in front of its opening is about a block. -/
private theorem Branched.about_none (hd : d.Branched) {before after : List Happening} {b : Frame}
    (hs : d.script = before ++ .opening b :: after) {h : Happening} (hh : h ∈ before) :
    h.labelOf? b = none ∧ h ≠ .closing b := by
  have hb : b ∈ d.frames := of_script hs
  have hof := of_script_before hs hh
  have hle := le_of_mem_before hs hh
  cases h with
  | opening c =>
    refine ⟨if_neg ?_, Happening.noConfusion⟩
    rintro rfl
    exact hd.laminar.not_mem_before hs rfl hh
  | branch c s =>
    refine ⟨if_neg ?_, Happening.noConfusion⟩
    rintro rfl
    exact Int.not_lt.2 (hd.start_mem hof.1 hof.2).1 ((Happening.le_opening_iff rfl).1 hle)
  | closing c =>
    refine ⟨rfl, ?_⟩
    rintro he
    cases he
    have := Happening.closing_le_opening_iff.1 hle
    have := hd.laminar.forward b hb
    omega
  | message | note | activate | deactivate => exact ⟨rfl, Happening.noConfusion⟩

/-- A draft into which some lines of the script have been read, if the participants are those of `ps`. -/
private structure Sketch (d : Diagram) (ps : Keyed Text Participant) (before : List Happening)
    (lines : List (Happening × Int)) (D : Draft) : Prop where
  script : lines.map Prod.fst = before
  clocked : Clocked lines D.next
  participants : D.participants = ps
  messages : D.messages = retoldMessages (d.who ps) lines
  notes : D.notes = retoldNotes (d.who ps) lines
  blocks : D.blocks = (opened before).map (Frame.retold lines)
  inside : D.inside = (openBehind before).map fun b => (opened before).idxOf b

/-- The draft behind a line of the script. -/
private def behind (d : Diagram) (D : Draft) (h : Happening) : Draft := D.add (h.statement d.nameOf).freed

section

variable {ps : Keyed Text Participant} {before after : List Happening} {lines : List (Happening × Int)} {D : Draft}
  (hD : d.Sketch ps before lines D)
include hD

private theorem id_sketch (id : Id) : D.id (d.nameOf id) = d.who ps id := by
  rw [Draft.id, hD.participants, who]

/-- The draft behind a line has the messages and the notes of the line, and what the line does to the blocks. -/
private theorem sketch_line {h : Happening} {D' : Draft} (hparticipants : D'.participants = D.participants)
    (hclocked : Clocked (lines ++ [(h, (D.next : Int))]) D'.next)
    (hmessages : D'.messages = D.messages ++ retoldMessages (d.who ps) [(h, (D.next : Int))])
    (hnotes : D'.notes = D.notes ++ retoldNotes (d.who ps) [(h, (D.next : Int))])
    (hblocks : D'.blocks = (opened (before ++ [h])).map (Frame.retold (lines ++ [(h, (D.next : Int))])))
    (hinside : D'.inside = (openBehind (before ++ [h])).map fun b => (opened (before ++ [h])).idxOf b) :
    d.Sketch ps (before ++ [h]) (lines ++ [(h, (D.next : Int))]) D' where
  script := by
    rw [List.map_append, hD.script]
    rfl
  clocked := hclocked
  participants := hparticipants.trans hD.participants
  messages := by
    rw [hmessages, hD.messages]
    exact List.filterMap_append.symm
  notes := by
    rw [hnotes, hD.notes]
    exact List.filterMap_append.symm
  blocks := hblocks
  inside := hinside

/-- A line that is not about a block leaves the blocks as they are. -/
private theorem blocks_of_plain {h : Happening} (hend : h.isEnd = false) (hlabel : ∀ b, h.labelOf? b = none) {n : Int} :
    D.blocks = (opened (before ++ [h])).map (Frame.retold (lines ++ [(h, n)])) ∧
      D.inside = (openBehind (before ++ [h])).map fun b => (opened (before ++ [h])).idxOf b := by
  have hopened : opened (before ++ [h]) = opened before := by
    rw [opened, List.filterMap_append]
    cases h with
    | opening | closing => cases hend
    | message | note | branch | activate | deactivate => exact List.append_nil _
  have hstack : openBehind (before ++ [h]) = openBehind before := by
    rw [openBehind_append]
    cases h with
    | opening | closing => cases hend
    | message | note | branch | activate | deactivate => rfl
  have hretold : ∀ b : Frame, b.retold (lines ++ [(h, n)]) = b.retold lines := by
    intro b
    refine retold_append (hlabel b) ?_
    rintro rfl
    cases hend
  rw [hopened, hstack, hD.blocks, hD.inside]
  exact ⟨List.map_congr_left fun b _ => (hretold b).symm, rfl⟩

section

variable (hknown : ∀ id ∈ d.ids, d.nameOf id ∈ ps.keys)
include hknown

private theorem mention_sketch {id : Id} (h : id ∈ d.ids) : D.mention (d.nameOf id) = D :=
  Draft.mention_of_mem (hD.participants ▸ hknown id h)

private theorem sketch_message {m : Message Id} (hs : d.script = before ++ .message m :: after) :
    d.Sketch ps (before ++ [.message m]) (lines ++ [(.message m, (D.next : Int))]) (d.behind D (.message m)) := by
  obtain ⟨hsource, htarget⟩ := d.linked_known.message_ends m (of_script hs)
  have hbehind : d.behind D (.message m) =
      { D with
        messages := D.messages ++ [⟨d.who ps m.source, d.who ps m.target, m.type, freed m.label, D.next⟩]
        next := D.next + 1 } := by
    simp only [behind, Happening.statement, Statement.freed, Draft.add, mention_sketch hD hknown hsource,
      mention_sketch hD hknown htarget, id_sketch hD]
  obtain ⟨hblocks, hinside⟩ := blocks_of_plain hD (h := .message m) (n := D.next) rfl fun _ => rfl
  rw [hbehind]
  exact sketch_line hD rfl (hD.clocked.succ _) rfl (List.append_nil _).symm hblocks hinside

private theorem sketch_note {m : Note Id} (hs : d.script = before ++ .note m :: after) :
    d.Sketch ps (before ++ [.note m]) (lines ++ [(.note m, (D.next : Int))]) (d.behind D (.note m)) := by
  obtain ⟨-, hids⟩ := d.linked_known.note_participants m (of_script hs)
  have hmention : (m.participants.map d.nameOf).foldl Draft.mention D = D := by
    apply Draft.foldl_mention_of_mem
    rw [List.forall_mem_map]
    exact fun id hid => hD.participants ▸ hknown id (hids hid)
  have hkeys : (m.participants.map d.nameOf).map D.id = m.participants.map (d.who ps) := by
    rw [List.map_map]
    exact List.map_congr_left fun id _ => id_sketch hD id
  have hbehind : d.behind D (.note m) =
      { D with
        notes := D.notes ++ [⟨freed m.text, m.position, m.participants.map (d.who ps), D.next⟩]
        next := D.next + 1 } := by
    simp only [behind, Happening.statement, Statement.freed, Draft.add, hmention, hkeys]
  obtain ⟨hblocks, hinside⟩ := blocks_of_plain hD (h := .note m) (n := D.next) rfl fun _ => rfl
  rw [hbehind]
  exact sketch_line hD rfl (hD.clocked.succ _) (List.append_nil _).symm rfl hblocks hinside

private theorem sketch_activate {a : Activation Id} (hs : d.script = before ++ .activate a :: after) :
    d.Sketch ps (before ++ [.activate a]) (lines ++ [(.activate a, (D.next : Int))]) (d.behind D (.activate a)) := by
  have hid := d.linked_known.activation_participant a (of_script hs)
  have hbehind : d.behind D (.activate a) =
      { D with
        activations := D.activations ++ [⟨d.who ps a.participant, D.next, none⟩]
        next := D.next + 1 } := by
    simp only [behind, Happening.statement, Statement.freed, Draft.add, mention_sketch hD hknown hid, id_sketch hD]
  obtain ⟨hblocks, hinside⟩ := blocks_of_plain hD (h := .activate a) (n := D.next) rfl fun _ => rfl
  rw [hbehind]
  exact sketch_line hD rfl (hD.clocked.succ _) (List.append_nil _).symm (List.append_nil _).symm hblocks hinside

private theorem sketch_deactivate {a : Activation Id} {stop : Int}
    (hs : d.script = before ++ .deactivate a stop :: after) :
    d.Sketch ps (before ++ [.deactivate a stop]) (lines ++ [(.deactivate a stop, (D.next : Int))])
      (d.behind D (.deactivate a stop)) := by
  have hid := d.linked_known.activation_participant a (of_script hs).1
  obtain ⟨as, n, hle, hbehind⟩ : ∃ as n, D.next ≤ n ∧
      d.behind D (.deactivate a stop) = { D with activations := as, next := n } := by
    simp only [behind, Happening.statement, Statement.freed, Draft.add, mention_sketch hD hknown hid]
    split
    · exact ⟨_, _, Nat.le_succ _, rfl⟩
    · exact ⟨_, _, Nat.le_refl _, rfl⟩
  obtain ⟨hblocks, hinside⟩ := blocks_of_plain hD (h := .deactivate a stop) (n := D.next) rfl fun _ => rfl
  rw [hbehind]
  exact sketch_line hD rfl (hD.clocked.append (Int.ofNat_le.2 hle) Bool.noConfusion) (List.append_nil _).symm
    (List.append_nil _).symm hblocks hinside

end

variable (hd : d.Branched)
include hd

private theorem sketch_opening {b : Frame} (hs : d.script = before ++ .opening b :: after) :
    d.Sketch ps (before ++ [.opening b]) (lines ++ [(.opening b, (D.next : Int))]) (d.behind D (.opening b)) := by
  have hn := hd.laminar.nest hs
  have hopened : opened (before ++ [.opening b]) = opened before ++ [b] := List.filterMap_append
  have hnew : b ∉ opened before := fun hb => hd.laminar.not_mem_before hs rfl (mem_opened.1 hb)
  have hblock : b.retold (lines ++ [(.opening b, (D.next : Int))]) =
      ⟨b.kind, [(freed b.first.label, (D.next : Int))], none⟩ := by
    rw [retold_append_label (Happening.labelOf?_opening b),
      retold_of_none fun i hi => hd.about_none hs (hD.script ▸ hi)]
    rfl
  have hothers : ∀ c ∈ opened before, c.retold (lines ++ [(.opening b, (D.next : Int))]) = c.retold lines := by
    intro c hc
    refine retold_append (if_neg ?_) Happening.noConfusion
    rintro rfl
    exact hnew hc
  have hlength : D.blocks.length = (opened before).length := by rw [hD.blocks, List.length_map]
  have hbehind : d.behind D (.opening b) =
      { D with
        blocks := D.blocks ++ [⟨b.kind, [(freed b.first.label, (D.next : Int))], none⟩]
        inside := D.blocks.length :: D.inside
        next := D.next + 1 } := rfl
  rw [hbehind]
  refine sketch_line hD rfl (hD.clocked.succ _) (List.append_nil _).symm (List.append_nil _).symm ?_ ?_
  · rw [hopened, List.map_append, List.map_singleton, hblock, List.map_congr_left hothers, ← hD.blocks]
  · rw [hopened, openBehind_append, Happening.inside, List.map_cons, List.idxOf_append_of_notMem hnew,
      List.idxOf_cons_self, Nat.add_zero, ← hlength]
    refine congrArg (D.blocks.length :: ·) (hD.inside.trans (List.map_congr_left ?_))
    intro c hc
    exact (List.idxOf_append_of_mem (mem_opened.2 ((hn.mem c).1 hc).1)).symm

/-- A line that is about one open block changes that block. -/
private theorem modify_blocks {h : Happening} {b : Frame} (hs : d.script = before ++ h :: after)
    (hb : b ∈ opened before) {f : Block → Block} {n : Int} (hown : b.retold (lines ++ [(h, n)]) = f (b.retold lines))
    (hother : ∀ c ≠ b, c.retold (lines ++ [(h, n)]) = c.retold lines) :
    D.blocks.modify ((opened before).idxOf b) f = (opened before).map (Frame.retold (lines ++ [(h, n)])) := by
  rw [hD.blocks]
  exact (map_eq_modify_idxOf (hd.laminar.nodup_opened hs) hb (fun c _ => hother c) hown).symm

private theorem sketch_branch {b : Frame} {s : Span} (hs : d.script = before ++ .branch b s :: after)
    (hown : (openBehind before).head? = some b) :
    d.Sketch ps (before ++ [.branch b s]) (lines ++ [(.branch b s, (D.next : Int))]) (d.behind D (.branch b s)) := by
  obtain ⟨rest, hrest⟩ := List.head?_eq_some_iff.1 hown
  have hb : b ∈ opened before := mem_opened.2 (((hd.laminar.nest hs).mem b).1 (hrest ▸ List.mem_cons_self)).1
  have hopened : opened (before ++ [.branch b s]) = opened before := by
    rw [opened, List.filterMap_append]
    exact List.append_nil _
  have hstack : openBehind (before ++ [.branch b s]) = openBehind before := openBehind_append _ _
  have hinside := hD.inside
  rw [hrest, List.map_cons] at hinside
  have hbehind : d.behind D (.branch b s) =
      { D with
        blocks := D.blocks.modify ((opened before).idxOf b) fun c =>
          { c with branches := c.branches ++ [(freed s.label, (D.next : Int))] }
        next := D.next + 1 } := by
    simp only [behind, Happening.statement, Statement.freed, Draft.add, hinside]
  rw [hbehind]
  refine sketch_line hD rfl (hD.clocked.succ _) (List.append_nil _).symm (List.append_nil _).symm ?_ ?_
  · rw [hopened]
    refine modify_blocks hD hd hs hb (retold_append_label (Happening.labelOf?_branch b s)) fun c hne => ?_
    exact retold_append (if_neg hne.symm) Happening.noConfusion
  · rw [hopened, hstack]
    exact hD.inside

private theorem sketch_closing {b : Frame} (hs : d.script = before ++ .closing b :: after) :
    d.Sketch ps (before ++ [.closing b]) (lines ++ [(.closing b, (D.next : Int))]) (d.behind D (.closing b)) := by
  have hn := hd.laminar.nest hs
  obtain ⟨rest, hrest⟩ := hn.top hd.laminar hs
  obtain ⟨hopening, hnot⟩ := (hn.mem b).1 (hrest ▸ List.mem_cons_self)
  have hopened : opened (before ++ [.closing b]) = opened before := by
    rw [opened, List.filterMap_append]
    exact List.append_nil _
  have hinside := hD.inside
  rw [hrest, List.map_cons] at hinside
  have hbehind : d.behind D (.closing b) =
      { D with
        blocks := D.blocks.modify ((opened before).idxOf b) fun c => { c with stop := some (D.next : Int) }
        inside := rest.map fun b => (opened before).idxOf b
        next := D.next + 1 } := by
    simp only [behind, Happening.statement, Statement.freed, Draft.add, Draft.close, hinside]
  rw [hbehind]
  refine sketch_line hD rfl (hD.clocked.succ _) (List.append_nil _).symm (List.append_nil _).symm ?_ ?_
  · rw [hopened]
    refine modify_blocks hD hd hs (mem_opened.2 hopening) (retold_append_closing (hD.script ▸ hnot)) fun c hne => ?_
    exact retold_append rfl fun he => hne (Happening.closing.inj he).symm
  · rw [hopened, openBehind_append, hrest]
    rfl

end

/-- Where every branch goes on with its own block, reading the lines leads from draft to draft. -/
private theorem Branched.sketch (hd : d.Branched)
    (hown : ∀ before b s after, d.script = before ++ .branch b s :: after → (openBehind before).head? = some b)
    {ps : Keyed Text Participant} (hknown : ∀ id ∈ d.ids, d.nameOf id ∈ ps.keys) {D : Draft} (hD : d.Sketch ps [] [] D)
    {before after : List Happening} (hs : d.script = before ++ after) :
    ∃ lines, d.Sketch ps before lines (((before.map (Happening.statement d.nameOf)).map Statement.freed).foldl
      Draft.add D) := by
  induction before using List.reverseRecOn generalizing after with
  | nil => exact ⟨[], hD⟩
  | append_singleton before h ih =>
    rw [List.append_assoc] at hs
    obtain ⟨lines, hbefore⟩ := ih hs
    rw [List.map_append, List.map_append, List.foldl_append]
    generalize List.foldl Draft.add D _ = E at hbefore ⊢
    refine ⟨lines ++ [(h, (E.next : Int))], ?_⟩
    show d.Sketch ps (before ++ [h]) _ (d.behind E h)
    cases h with
    | message m => exact sketch_message hbefore hknown hs
    | note n => exact sketch_note hbefore hknown hs
    | activate a => exact sketch_activate hbefore hknown hs
    | deactivate a stop => exact sketch_deactivate hbefore hknown hs
    | opening b => exact sketch_opening hbefore hd hs
    | branch b s => exact sketch_branch hbefore hd hs (hown before b s after hs)
    | closing b => exact sketch_closing hbefore hd hs

/-! ### All lines -/

/-- The lines that open a block and go on with it come from that block. -/
private theorem Branched.filter_happenings (hd : d.Branched) {b : Frame} (hb : b ∈ d.frames) :
    d.known.happenings.filter (fun h => (h.labelOf? b).isSome) = .opening b :: b.more.map (.branch b) := by
  have hmessages : (d.known.messages.map Happening.message).filter (fun h => (h.labelOf? b).isSome) = [] := by
    simp [Happening.labelOf?]
  have hnotes : (d.known.notes.map Happening.note).filter (fun h => (h.labelOf? b).isSome) = [] := by
    simp [Happening.labelOf?]
  have hmarks :
      (d.known.activations.flatMap fun a => a.happenings.filter fun h => (h.labelOf? b).isSome) = [] := by
    simp [Activation.happenings, Happening.labelOf?]
  have hother : ∀ c ≠ b, c.happenings.filter (fun h => (h.labelOf? b).isSome) = [] := by
    intro c hne
    simp [Frame.happenings, Happening.labelOf?, hne]
  have hown : b.happenings.filter (fun h => (h.labelOf? b).isSome) = .opening b :: b.more.map (.branch b) := by
    simp [Frame.happenings, Happening.labelOf?, List.filter_map, Function.comp_def]
  have hframes :
      (d.known.frames.flatMap fun c => c.happenings.filter fun h => (h.labelOf? b).isSome) =
        .opening b :: b.more.map (.branch b) := by
    show (d.frames.flatMap _) = _
    obtain ⟨m, r, hsplit⟩ := List.append_of_mem hb
    have hnodup := hd.laminar.nodup
    rw [hsplit, List.nodup_middle, List.nodup_cons, List.mem_append, not_or] at hnodup
    rw [hsplit, List.flatMap_append, List.flatMap_cons, hown,
      List.flatMap_eq_nil_iff.2 fun c hc => hother c fun he => hnodup.1.1 (he ▸ hc),
      List.flatMap_eq_nil_iff.2 fun c hc => hother c fun he => hnodup.1.2 (he ▸ hc), List.nil_append, List.append_nil]
  rw [happenings, List.filter_append, List.filter_append, List.filter_append, hmessages, hnotes, List.filter_flatMap,
    List.filter_flatMap, hframes, hmarks, List.append_nil, List.nil_append, List.nil_append]

/-- The script has the branches of a block in their order. -/
private theorem Branched.labels_script (hd : d.Branched) {b : Frame} (hb : b ∈ d.frames) :
    d.script.filterMap (Happening.labelOf? b) = b.branches.map fun s => freed s.label := by
  have hsorted : (Happening.opening b :: b.more.map (Happening.branch b)).Pairwise fun i j =>
      (i.event d.nameOf).le (j.event d.nameOf) := by
    simp only [Happening.le_event_iff]
    rw [List.pairwise_cons, List.forall_mem_map, List.pairwise_map]
    refine ⟨fun s hs => (Happening.opening_le_iff rfl).2 (hd.start_mem hb hs).1, ?_⟩
    refine (List.pairwise_cons.1 (hd.pairwise hb)).2.imp_of_mem ?_
    intro s t hs _ hst
    have hforward := hd.forward b hb s (List.mem_cons_of_mem _ hs)
    simp only [Happening.Le, Happening.order, Happening.kind, Happening.span, Nat.lt_irrefl, false_or, true_and]
    omega
  have hscript : d.script.filter (fun h => (h.labelOf? b).isSome) = .opening b :: b.more.map (.branch b) := by
    rw [script, filter_sortBy_eq (fun i j k => Event.le_trans (i.event _) (j.event _) (k.event _))
      (fun i j => Event.le_total (i.event _) (j.event _)), hd.filter_happenings hb, sortBy_of_pairwise hsorted]
  have hlabels : d.script.filterMap (Happening.labelOf? b) =
      (d.script.filter fun h => (h.labelOf? b).isSome).filterMap (Happening.labelOf? b) := by
    rw [List.filterMap_filter]
    apply List.filterMap_congr
    intro h _
    cases hlabel : h.labelOf? b <;> simp
  have hmore : (b.more.map (Happening.branch b)).filterMap (Happening.labelOf? b) =
      b.more.map fun s => freed s.label := by
    rw [List.filterMap_map, ← List.filterMap_eq_map]
    exact List.filterMap_congr fun s _ => Happening.labelOf?_branch b s
  rw [hlabels, hscript, List.filterMap_cons_some (Happening.labelOf?_opening b), hmore]
  rfl

/-- What is read of the script of a diagram, whose participants come back as `who`, if its lines are read with the
numbers of `lines`: messages and notes stand at their lines, and each block has all its branches, which begin at their
lines.  Blocks come in the order in which they open. -/
structure Retold (d e : Diagram) (who : Id → Id) (lines : List (Happening × Int)) : Prop where
  script : lines.map Prod.fst = d.script
  ascending : lines.Pairwise fun k l => k.2 ≤ l.2 ∧ (k.1.isDeactivation = false → k.2 < l.2)
  /-- Participants are told apart by what the text calls them. -/
  same : ∀ i ∈ d.ids, ∀ j ∈ d.ids, who i = who j ↔ d.nameOf i = d.nameOf j
  messages : e.messages = retoldMessages who lines
  notes : e.notes = retoldNotes who lines
  opened : (opened d.script).Perm d.frames
  labels : ∀ b ∈ d.frames, (b.retold lines).branches.map Prod.fst = b.branches.map fun s => freed s.label
  ended : ∀ b ∈ d.frames, (b.retold lines).stop.isSome = true
  loops : e.loops = ((Sequence.opened d.script).filter (·.kind = .loop)).flatMap fun b => (b.retold lines).spans
  alts : e.alts = ((Sequence.opened d.script).filter (·.kind = .alt)).map fun b => (b.retold lines).spans
  opts : e.opts = ((Sequence.opened d.script).filter (·.kind = .opt)).flatMap fun b => (b.retold lines).spans

/-- The declared participants, by what the text calls them. -/
private theorem exists_declared (d : Diagram) : ∃ ps : Keyed Text Participant,
    (∀ id ∈ d.ids, d.nameOf id ∈ ps.keys) ∧
      (d.sortedParticipants.map Participant.declaration).foldl Draft.add {} = { participants := ps } := by
  have hrun : ∀ (l : List Participant) (ps : Keyed Text Participant), ∃ ps' : Keyed Text Participant,
      (∀ key, key ∈ ps'.keys ↔ key ∈ l.map Participant.key ∨ key ∈ ps.keys) ∧
        (l.map Participant.declaration).foldl Draft.add { participants := ps } = { participants := ps' } := by
    intro l
    induction l with
    | nil => exact fun ps => ⟨ps, by simp, rfl⟩
    | cons p l ih =>
      intro ps
      obtain ⟨ps', hkeys, hps'⟩ := ih (({ participants := ps } : Draft).add p.declaration).participants
      refine ⟨ps', fun key => ?_, hps'⟩
      rw [hkeys, Participant.declaration, Draft.add, Draft.mem_keys_update, List.map_cons, List.mem_cons]
      tauto
  obtain ⟨ps, hkeys, hps⟩ := hrun d.sortedParticipants []
  refine ⟨ps, fun id hid => ?_, hps⟩
  obtain ⟨p, hp, hname⟩ := d.exists_nameOf hid
  rw [hname, hkeys]
  exact Or.inl (List.mem_map_of_mem (mem_sortedParticipants.2 hp))

/-- Where every branch goes on with its own block, the script is read with all its branches. -/
private theorem Branched.retold (hd : d.Branched)
    (hown : ∀ before b s after, d.script = before ++ .branch b s :: after → (openBehind before).head? = some b) :
    ∃ who lines, d.Retold (Draft.ofStatements (d.sortedParticipants.map Participant.declaration ++
      (d.script.map (Happening.statement d.nameOf)).map Statement.freed)).toDiagram who lines := by
  have hwhole : d.script = d.script ++ [] := (List.append_nil _).symm
  obtain ⟨ps, hknown, hps⟩ := exists_declared d
  have hstart : d.Sketch ps [] [] { participants := ps } :=
    { script := rfl, clocked := ⟨List.forall_mem_nil _, List.Pairwise.nil⟩, participants := rfl, messages := rfl,
      notes := rfl, blocks := rfl, inside := rfl }
  obtain ⟨lines, hD⟩ := hd.sketch hown hknown hstart hwhole
  have hclosed := hd.laminar.openBehind_script
  rw [Draft.ofStatements, List.foldl_append, hps]
  generalize List.foldl Draft.add { participants := ps } _ = D at hD
  have hinside : D.inside = [] := by rw [hD.inside, hclosed, List.map_nil]
  -- the script has closed every block, so that nothing is left to close at the end
  have hall : D.closeAll = D := by rw [Draft.closeAll, hinside, List.foldl_nil]
  have hfilter : ∀ kind : BlockKind, D.blocks.filter (·.kind = kind) =
      ((Sequence.opened d.script).filter (·.kind = kind)).map (Frame.retold lines) := by
    intro kind
    rw [hD.blocks, List.filter_map]
    rfl
  rw [hall]
  refine ⟨d.who ps, lines, ?_⟩
  exact {
    script := hD.script
    ascending := hD.clocked.ascending
    same := by
      intro i hi j hj
      rw [who, who, Id.minted.injEq, List.idxOf_inj (hknown i hi)]
    messages := hD.messages
    notes := hD.notes
    opened := opened_script_perm d
    labels := by
      intro b hb
      rw [← hd.labels_script hb, ← hD.script, Frame.retold, List.map_filterMap, List.filterMap_map]
      apply List.filterMap_congr
      intro l _
      rw [Option.map_map]
      exact Option.map_id'
    ended := by
      intro b hb
      have hclosing : .closing b ∈ d.script := d.mem_script.2 hb
      rw [← hD.script, List.mem_map] at hclosing
      obtain ⟨l, hl, hlb⟩ := hclosing
      rw [Frame.retold, List.findSome?_isSome_iff]
      exact ⟨l, hl, by rw [if_pos hlb]; rfl⟩
    loops := by
      show (D.blocks.filter (·.kind = .loop)).flatMap Block.spans = _
      rw [hfilter, List.flatMap_map]
    alts := by
      show (D.blocks.filter (·.kind = .alt)).map Block.spans = _
      rw [hfilter, List.map_map]
      rfl
    opts := by
      show (D.blocks.filter (·.kind = .opt)).flatMap Block.spans = _
      rw [hfilter, List.flatMap_map] }

/-- The line of a branch stands in its block, and goes on with it exactly if no block inside it begins or ends at the
same order.  If that holds of all branches, and texts stay on their lines, the text is read without errors and with all
branches if there is room for the blocks; if there is not, the only error is that of a block too many. -/
theorem Branched.branches_kept (hd : d.Branched) :
    (∀ before b s after, d.script = before ++ .branch b s :: after →
      b ∈ openBehind before ∧ ((openBehind before).head? = some b ↔ d.Clear b s) ∧
        ∀ size : Int, (d.lines size)[1 + d.participants.length + before.length]? =
          some (Text.indent size (1 + (openBehind before).tail.length) ++
            keywordText (Kind.branch []).text s.label)) ∧
      (d.Spelled → (∀ b ∈ d.frames, ∀ s ∈ b.more, d.Clear b s) → ∀ (stack : Stack) (size : Int),
        (d.NestsWithin stack.blocks →
          ∃ e who lines, (read stack (d.write size)).outcome = .ok e ∧ d.Retold e who lines) ∧
        (¬ d.NestsWithin stack.blocks → ∃ o, (read stack (d.write size)).outcome = .error [stack.error o])) := by
  constructor
  · intro before b s after hs
    exact ⟨hd.mem_openBehind hs, hd.head?_iff hs, getElem?_lines hs⟩
  · intro hspelled hclear stack size
    have hown : ∀ before b s after, d.script = before ++ .branch b s :: after →
        (openBehind before).head? = some b := by
      intro before b s after hs
      obtain ⟨hb, hsb⟩ : b ∈ d.frames ∧ s ∈ b.more := of_script hs
      exact (hd.head?_iff hs).2 (hclear b hb s hsb)
    have hsaid : ∀ size : Int, said (d.write size) = d.sortedParticipants.map Participant.declaration ++
        (d.script.map (Happening.statement d.nameOf)).map Statement.freed :=
      said_write hspelled (fun h hh => reads_script hspelled hh) (sortedEvents_eq_script d)
        (fitting_script hd.laminar hown (List.nil_append _).symm)
    constructor
    · intro hroom
      obtain ⟨who, lines, hretold⟩ := hd.retold hown
      exact ⟨_, who, lines, read_write_happenings hsaid (sortedEvents_eq_script d) stack size
        (hd.laminar.deepest_events.2 hroom), hretold⟩
    · intro hroom
      exact read_write_crowded hsaid (sortedEvents_eq_script d) stack size (mt hd.laminar.deepest_events.1 hroom)

end Diagram

/-- A tour with a loop and an alternative in the two branches of another one.  Much happens where branches, blocks and
activations begin and end. -/
def tour : Diagram where
  participants := [
    { id := .given "g".toList, name := "guide".toList },
    { id := .given "v".toList, name := "Visitor".toList, kind := .actor, shortName := some "V".toList, order := -1 }]
  messages := [
    { source := .given "g".toList, target := .given "v".toList, label := "this way".toList, order := 4 },
    { source := .given "v".toList, target := .given "nobody".toList, order := 4 },
    { source := .given "v".toList, target := .given "g".toList, type := .dotted, order := 8 }]
  notes := [{ text := "stairs".toList, participants := [.given "v".toList], order := 4 }]
  activations := [{ participant := .given "g".toList, start := 4, stop := some 8 }]
  loops := [{ label := "each room".toList, start := 0, stop := 3 }]
  alts := [
    [{ label := "long".toList, start := 6, stop := 7 }, { label := "short".toList, start := 7, stop := 8 }],
    [],
    [{ label := "rain".toList, start := 0, stop := 4 }, { label := [], start := 4, stop := 8 }]]
  opts := [{ label := "tip".toList, start := 8, stop := 8 }]

theorem branches_kept_tour : tour.Branched ∧ tour.Spelled ∧ (∀ b ∈ tour.frames, ∀ s ∈ b.more, tour.Clear b s) ∧
    tour.NestsWithin 325 ∧ ∃ e who lines, (read {} (tour.write 2)).outcome = .ok e ∧ tour.Retold e who lines := by
  have hd : tour.Branched := by
    constructor
    · constructor <;> decide
    all_goals decide
  have hs : tour.Spelled := by
    constructor <;> decide
  have hc : ∀ b ∈ tour.frames, ∀ s ∈ b.more, tour.Clear b s := by decide
  have hroom : tour.NestsWithin 325 := by decide
  exact ⟨hd, hs, hc, hroom, (hd.branches_kept.2 hs hc {} 2).1 hroom⟩

/-- A walk with a loop that ends where the second branch begins. -/
def walk : Diagram where
  loops := [{ label := "l".toList, start := 1, stop := 2 }]
  alts := [[{ label := "a".toList, start := 0, stop := 2 }, { label := "b".toList, start := 2, stop := 4 }]]

/-- A walk whose first branch is labelled with two lines. -/
def signpost : Diagram where
  alts := [[{ label := "a\nend".toList, start := 0, stop := 2 }, { label := "b".toList, start := 2, stop := 4 }]]

/-- A walk past somebody whose name has quotes in it. -/
def gatekeeper : Diagram where
  participants := [{ id := .given "g".toList, name := "a\" end \"".toList }]
  activations := [{ participant := .given "g".toList, start := 1 }]
  alts := [[{ label := "a".toList, start := 0, stop := 2 }, { label := "b".toList, start := 2, stop := 4 }]]

private theorem branched_onion (n : Nat) : (onion n).Branched where
  laminar := (writable_onion n).toCoherent.laminar
  forward b hb s hs := Int.le_of_lt (((writable_onion n).joined b hb).forward s hs)
  chained b hb := ((writable_onion n).joined b hb).chained
  held := by
    intro b hb c hc hne hin
    obtain ⟨i, -, rfl⟩ := mem_frames_onion.1 hb
    obtain ⟨j, -, rfl⟩ := mem_frames_onion.1 hc
    have hij : i ≠ j := by
      rintro rfl
      exact hne rfl
    have hle := liesIn_peel_iff.1 hin
    refine ⟨_, List.mem_cons_self, ?_⟩
    show (i : Int) ≤ j ∧ 3 * (n : Int) - 2 * j ≤ 3 * n - 2 * i - 1
    omega

private theorem clear_onion (n : Nat) : ∀ b ∈ (onion n).frames, ∀ s ∈ b.more, (onion n).Clear b s := by
  intro b hb s hs c hc hne hin
  obtain ⟨i, hi, rfl⟩ := mem_frames_onion.1 hb
  obtain ⟨j, hj, rfl⟩ := mem_frames_onion.1 hc
  rw [peel, List.mem_singleton] at hs
  subst hs
  show (j : Int) ≠ 3 * n - 2 * i - 1 ∧ 3 * (n : Int) - 2 * j ≠ 3 * n - 2 * i - 1
  omega

/-- Although branches and blocks fit together, the line of the second branch stands in the loop, and the branch is lost
when the text is read.  It is also lost if a label is not one line, or if a name has quotes in it, and the text is not
read at all if the blocks nest too deep. -/
theorem branches_lost : walk.Branched ∧ (∀ b ∈ walk.frames, b.Joined) ∧ walk.Spelled ∧
    (∃ before b s after, walk.script = before ++ .branch b s :: after ∧ (openBehind before).head? ≠ some b) ∧
    (read {} (walk.write 4)).outcome.toOption.map Diagram.alts = some [[⟨"a".toList, 0, 3⟩]] ∧
    signpost.Branched ∧ (∀ b ∈ signpost.frames, ∀ s ∈ b.more, signpost.Clear b s) ∧
    (read {} (signpost.write 4)).outcome.toOption.map Diagram.alts = some [[⟨"a".toList, 0, 1⟩]] ∧
    gatekeeper.Branched ∧ (∀ b ∈ gatekeeper.frames, ∀ s ∈ b.more, gatekeeper.Clear b s) ∧
    (read {} (gatekeeper.write 4)).outcome.toOption.map Diagram.alts = some [[⟨"a".toList, 0, 2⟩]] ∧
    (onion 326).Branched ∧ (onion 326).Spelled ∧ (∀ b ∈ (onion 326).frames, ∀ s ∈ b.more, (onion 326).Clear b s) ∧
    ∃ o, (read {} ((onion 326).write 4)).outcome = .error [Stack.error {} o] := by
  have hwalk : walk.Branched := by
    constructor
    · constructor <;> decide
    all_goals decide
  have hsignpost : signpost.Branched := by
    constructor
    · constructor <;> decide
    all_goals decide
  have hgatekeeper : gatekeeper.Branched := by
    constructor
    · constructor <;> decide
    all_goals decide
  have hspelled : walk.Spelled := by
    constructor <;> decide
  have hscript : walk.script =
      [.opening ⟨.alt, ⟨"a".toList, 0, 2⟩, [⟨"b".toList, 2, 4⟩]⟩, .opening ⟨.loop, ⟨"l".toList, 1, 2⟩, []⟩] ++
        .branch ⟨.alt, ⟨"a".toList, 0, 2⟩, [⟨"b".toList, 2, 4⟩]⟩ ⟨"b".toList, 2, 4⟩ ::
          [.closing ⟨.loop, ⟨"l".toList, 1, 2⟩, []⟩, .closing ⟨.alt, ⟨"a".toList, 0, 2⟩, [⟨"b".toList, 2, 4⟩]⟩] := by
    decide
  have hroom : ¬ (onion 326).NestsWithin 325 := fun h => absurd (le_of_nestsWithin_onion h) (by decide)
  have honion := writable_onion 326
  exact ⟨hwalk, by decide, hspelled, ⟨_, _, _, _, hscript, by decide⟩, by decide +kernel, hsignpost, by decide,
    by decide +kernel, hgatekeeper, by decide, by decide +kernel, branched_onion 326, honion.free.toSpelled,
    clear_onion 326, read_write_deep honion.toCoherent honion.free.toSpelled hroom 4⟩

end DiagramText.Sequence

import DiagramText.Proofs.Flowchart.Lines

/-!
# Asking for the names of nodes

Nodes are asked for their names one after another, and the same node may be asked again (`answers`).  A new name is
searched for: the name after the label is tried, then its variants, and nothing in the search itself sets it an end
(`Finds`).  It ends nevertheless, at the first variant that is not used (`finds_iff`), so every request is answered
(`answered_iff`).  The answers are those of one proper naming (`answers_eq_map`).
-/

namespace DiagramText.Flowchart

namespace Naming

/-! ### The search for a name -/

/-- The variants of a name: the name itself, then the name with a number from 1 on. -/
def variant (name : Text) : Nat → Text
  | 0 => name
  | n + 1 => name ++ '_' :: Text.ofNat (n + 1)

/-- The search finds `w` from the variant number `n` on: a variant that is not used is found, and any other is passed
over. -/
inductive Finds (used : List Text) (name : Text) : Nat → Text → Prop
  | here {n : Nat} (h : variant name n ∉ used) : Finds used name n (variant name n)
  | next {n : Nat} {w : Text} (h : variant name n ∈ used) (rest : Finds used name (n + 1) w) : Finds used name n w

variable {used : List Text} {name w : Text} {n : Nat}

theorem Finds.unique {v : Text} (h : Finds used name n v) (h' : Finds used name n w) : v = w := by
  induction h with
  | here hfree =>
    cases h' with
    | here _ => rfl
    | next hused _ => exact absurd hused hfree
  | next hused _ ih =>
    cases h' with
    | here hfree => exact absurd hused hfree
    | next _ rest => exact ih rest

private theorem Finds.of_first {k : Nat} (hfree : variant name (n + k) ∉ used)
    (hused : ∀ m < k, variant name (n + m) ∈ used) : Finds used name n (variant name (n + k)) := by
  induction k generalizing n with
  | zero => exact .here hfree
  | succ k ih =>
    have hnext : n + (k + 1) = n + 1 + k := by omega
    refine .next (hused 0 (Nat.succ_pos k)) ?_
    rw [hnext] at hfree ⊢
    refine ih hfree fun m hm => ?_
    have := hused (m + 1) (by omega)
    rwa [show n + (m + 1) = n + 1 + m by omega] at this

private theorem variants_eq (name : Text) (n : Nat) : variants name n = (List.range (n + 1)).map (variant name) := by
  rw [List.range_succ_eq_map, List.map_cons, List.map_map]
  rfl

/-- The search ends, and it finds the first variant that is not used. -/
theorem finds_iff : Finds used name 0 w ↔ w = unused used name := by
  have hfinds : Finds used name 0 (unused used name) := by
    unfold unused
    cases hfound : (variants name used.length).find? (· ∉ used) with
    | none =>
      -- there are more variants than used names
      have hnone := List.find?_eq_none.1 hfound _ (unused_not_mem used name).2
      exact absurd (decide_eq_true (unused_not_mem used name).1) hnone
    | some v =>
      rw [List.find?_eq_some_iff_getElem] at hfound
      obtain ⟨hfree, i, hi, hv, hbefore⟩ := hfound
      simp only [variants_eq, List.getElem_map, List.getElem_range] at hv hbefore
      rw [Option.getD_some, ← hv, ← Nat.zero_add i]
      refine Finds.of_first ?_ fun m hm => ?_
      · rw [Nat.zero_add, hv]
        exact of_decide_eq_true hfree
      · rw [Nat.zero_add]
        simpa using hbefore m hm
  exact ⟨fun h => h.unique hfinds, fun h => h ▸ hfinds⟩

/-! ### Requests and answers -/

/-- The answers to the nodes that are asked one after another; each node comes with its id and its label. -/
def answers (names : Naming) : List (Id × Text) → List Text
  | [] => []
  | n :: nodes => (names.assign n.1 n.2).name n.1 :: answers (names.assign n.1 n.2) nodes

/-- What the nodes are answered: a node that has a name is answered with it, and for any other a name is searched for
and kept. -/
inductive Answered : Naming → List (Id × Text) → List Text → Prop
  | nil {names : Naming} : Answered names [] []
  | known {names : Naming} {id : Id} {label w : Text} {nodes : List (Id × Text)} {ws : List Text}
      (h : names.get? id = some w) (rest : Answered names nodes ws) : Answered names ((id, label) :: nodes) (w :: ws)
  | new {names : Naming} {id : Id} {label w : Text} {nodes : List (Id × Text)} {ws : List Text}
      (h : names.get? id = none) (search : Finds names.used (base label names.length) 0 w)
      (rest : Answered (names ++ [(id, w)]) nodes ws) : Answered names ((id, label) :: nodes) (w :: ws)

private theorem name_assign_new {names : Naming} {id : Id} (hid : id ∉ names.keys) (label : Text) :
    (names.assign id label).name id = unused names.used (base label names.length) := by
  rw [Naming.name, assign, Keyed.get?_upsert, if_pos rfl, Keyed.get?_eq_none_iff.2 hid]
  rfl

/-- All nodes are answered, in one way. -/
theorem answered_iff {names : Naming} {nodes : List (Id × Text)} {ws : List Text} :
    Answered names nodes ws ↔ ws = answers names nodes := by
  constructor
  · intro h
    induction h with
    | nil => rfl
    | @known names id label w nodes ws h rest ih =>
      have hid : id ∈ names.keys := Keyed.mem_keys_iff.2 ⟨w, h⟩
      rw [answers, assign_of_mem hid, ← ih, Naming.name, h]
      rfl
    | @new names id label w nodes ws h search rest ih =>
      have hid : id ∉ names.keys := Keyed.get?_eq_none_iff.1 h
      rw [answers, name_assign_new hid, assign_of_not_mem hid, ← finds_iff.1 search, ← ih]
  · rintro rfl
    induction nodes generalizing names with
    | nil => exact .nil
    | cons n nodes ih =>
      obtain ⟨id, label⟩ := n
      rw [answers]
      by_cases hid : id ∈ names.keys
      · rw [assign_of_mem hid]
        exact .known (get?_name hid).1 ih
      · rw [name_assign_new hid, assign_of_not_mem hid]
        exact .new (Keyed.get?_eq_none_iff.2 hid) (finds_iff.2 rfl) ih

/-- A node keeps its name, so the answers are the names that the nodes have in the end. -/
theorem answers_eq_map (names : Naming) (nodes : List (Id × Text)) :
    answers names nodes = nodes.map fun n => (names.assignAll nodes).name n.1 := by
  induction nodes generalizing names with
  | nil => rfl
  | cons n nodes ih =>
    have hself : n.1 ∈ (names.assign n.1 n.2).keys := mem_keys_assign.2 (Or.inr rfl)
    rw [answers, ih, List.map_cons]
    exact congrArg (· :: _) (name_assignAll hself nodes).symm

/-- Whatever nodes are asked for their names, and however often, every one is answered, with one name: the same node
with the same, different nodes with different ones.  A name is a word that is not reserved, and it is read as one
identifier. -/
theorem answers_identify (nodes : List (Id × Text)) :
    Answered [] nodes (answers [] nodes) ∧ (answers [] nodes).length = nodes.length ∧
    (∀ a ∈ nodes.zip (answers [] nodes), ∀ b ∈ nodes.zip (answers [] nodes), a.2 = b.2 ↔ a.1.1 = b.1.1) ∧
    ∀ w ∈ answers [] nodes, Text.isWord w = true ∧ w ∉ reserved ∧ (tokenize rule w).tokens = [⟨.word w, {}⟩] := by
  have hproper := Proper.nil.assignAll nodes
  have hkeys : ∀ n ∈ nodes, n.1 ∈ (assignAll [] nodes).keys := fun n hn =>
    mem_keys_assignAll.2 (Or.inr (List.mem_map_of_mem hn))
  refine ⟨answered_iff.2 rfl, ?_, ?_, ?_⟩
  · rw [answers_eq_map, List.length_map]
  · have hzip : nodes.zip (answers [] nodes) = nodes.map fun n => (n, (assignAll [] nodes).name n.1) := by
      rw [answers_eq_map, ← List.zip_map', List.map_id']
    rw [hzip]
    intro a ha b hb
    obtain ⟨m, hm, rfl⟩ := List.mem_map.1 ha
    obtain ⟨n, hn, rfl⟩ := List.mem_map.1 hb
    refine ⟨fun hname => hproper.name_inj (hkeys m hm) (hkeys n hn) hname, fun hid => ?_⟩
    dsimp only at hid ⊢
    rw [hid]
  · intro w hw
    rw [answers_eq_map] at hw
    obtain ⟨n, hn, rfl⟩ := List.mem_map.1 hw
    obtain ⟨hword, hreserved⟩ := hproper.words _ (get?_name (hkeys n hn)).2
    refine ⟨hword, hreserved, ?_⟩
    rw [tokenize_word hword (ofReserved?_of_not_mem hreserved)]

/-- A node that comes again, a label that comes again, and a label that is a reserved word. -/
example : answers [] [(.minted 0, "X".toList), (.minted 1, "X".toList), (.minted 0, "X".toList), (.minted 2, endWord)] =
    ["X".toList, "X_1".toList, "X".toList, "end_".toList] := by decide

end Naming

end DiagramText.Flowchart

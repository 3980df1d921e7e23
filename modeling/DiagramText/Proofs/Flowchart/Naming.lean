import DiagramText.Flowchart.Naming
import DiagramText.Flowchart.Token
import DiagramText.Proofs.Keyed
import DiagramText.Proofs.Text.Parts
import Mathlib.Data.List.Nodup
import Mathlib.Data.List.Perm.Subperm

/-!
# Names are words, and they are different

A naming is proper if no id and no name occurs twice and every name is a word that is not reserved.  Giving names keeps
a naming proper (`Proper.assign`), whatever the labels are: the variants of a name are all different
(`nodup_variants`), so one of them is not used yet (`unused_not_mem`).  Nodes are named one after another
(`assignAll`), and a name that was given stays (`name_assignAll`).
-/

namespace DiagramText.Flowchart

/-! ### Reserved words -/

theorem ofReserved?_of_not_mem {w : Text} (h : w ∉ reserved) : Kind.ofReserved? w = none := by
  simp only [reserved, Direction.all, List.map_cons, List.map_nil, List.cons_append, List.nil_append, List.mem_cons,
    List.not_mem_nil, or_false, not_or] at h
  obtain ⟨h1, h2, h3, h4, h5, h6, h7, h8, h9, h10⟩ := h
  have hkeyword : Keyword.ofWord? w = none := by
    simp [Keyword.ofWord?, Ne.symm h1, Ne.symm h2, Ne.symm h3]
  have hdirection : Direction.ofWord? w = none := by
    simp [Direction.ofWord?, Direction.all, Ne.symm h6, Ne.symm h7, Ne.symm h8, Ne.symm h9, Ne.symm h10]
  rw [Kind.ofReserved?, if_neg h4, if_neg h5, hkeyword, hdirection]
  rfl

theorem underscore_not_mem_reserved {w : Text} (h : w ∈ reserved) : '_' ∉ w := by
  have hall : ∀ w ∈ reserved, '_' ∉ w := by decide
  exact hall w h

namespace Naming

/-! ### The name after a label -/

private theorem isWordChar_of_mem_wordChars {label : Text} {c : Char} (h : c ∈ wordChars label) :
    Text.isWordChar c = true := by
  obtain ⟨d, -, rfl⟩ := List.mem_map.1 h
  split
  · assumption
  · decide

theorem isWord_base (label : Text) (n : Nat) : Text.isWord (base label n) = true ∧ base label n ∉ reserved := by
  unfold base
  dsimp only
  generalize hcut : (Text.trim (· == '_') (wordChars label)).take maxLength = cut
  have hchars : ∀ c ∈ cut, Text.isWordChar c = true := by
    intro c hc
    rw [← hcut] at hc
    exact isWordChar_of_mem_wordChars ((Text.infix_trim _ _).subset (List.mem_of_mem_take hc))
  have hfront : ∀ c ∈ "node_".toList ++ "n_".toList, Text.isWordChar c = true := Text.forall_of_all (by decide)
  generalize hnamed : (if cut = [] then "node_".toList ++ Text.ofNat n else cut) = named
  have hnamed' : named ≠ [] ∧ ∀ c ∈ named, Text.isWordChar c = true := by
    rw [← hnamed]
    split
    · refine ⟨by simp, ?_⟩
      intro c hc
      rcases List.mem_append.1 hc with hc | hc
      · exact hfront c (List.mem_append_left _ hc)
      · exact Text.isWordChar_of_mem_ofNat hc
    · exact ⟨‹_›, hchars⟩
  generalize hword : (if (named.head?.map Char.isDigit).getD false = true then "n_".toList ++ named else named) = word
  have hword' : Text.isWord word = true := by
    rw [← hword, Text.isWord_iff]
    split
    · refine ⟨by simp, ?_, by simp⟩
      intro c hc
      rcases List.mem_append.1 hc with hc | hc
      · exact hfront c (List.mem_append_right _ hc)
      · exact hnamed'.2 c hc
    · rename_i hdigit
      refine ⟨hnamed'.1, hnamed'.2, ?_⟩
      intro c hc
      rw [hc] at hdigit
      simpa using hdigit
  split
  · rename_i hreserved
    refine ⟨?_, fun h => underscore_not_mem_reserved h (by simp)⟩
    rw [Text.isWord_iff] at hword' ⊢
    obtain ⟨hne, hall, hhead⟩ := hword'
    refine ⟨by simp, ?_, ?_⟩
    · intro c hc
      rcases List.mem_append.1 hc with hc | hc
      · exact hall c hc
      · rw [List.mem_singleton.1 hc]
        decide
    · intro c hc
      rw [List.head?_append_of_ne_nil _ hne] at hc
      exact hhead c hc
  · exact ⟨hword', ‹_›⟩

/-! ### Variants -/

theorem nodup_variants (name : Text) (n : Nat) : (variants name n).Nodup := by
  unfold variants
  rw [List.nodup_cons]
  constructor
  · intro h
    obtain ⟨i, -, hi⟩ := List.mem_map.1 h
    have := congrArg List.length hi
    simp only [List.length_append, List.length_cons] at this
    omega
  · apply List.Nodup.map _ List.nodup_range
    intro i j hij
    simp only [List.append_cancel_left_eq, List.cons.injEq, true_and] at hij
    have := Text.ofNat_inj hij
    omega

/-- There are more variants than used names, so one is left. -/
theorem unused_not_mem (used : List Text) (name : Text) :
    unused used name ∉ used ∧ unused used name ∈ variants name used.length := by
  unfold unused
  cases h : (variants name used.length).find? (· ∉ used) with
  | some v =>
    have hv := List.find?_some h
    exact ⟨by simpa using hv, List.mem_of_find?_eq_some h⟩
  | none =>
    exfalso
    rw [List.find?_eq_none] at h
    have hsub : variants name used.length ⊆ used := fun v hv => by simpa using h v hv
    have hle := (List.subperm_of_subset (nodup_variants name used.length) hsub).length_le
    simp only [variants, List.length_cons, List.length_map, List.length_range] at hle
    omega

private theorem isWord_of_mem_variants {name v : Text} {n : Nat} (hw : Text.isWord name = true) (hr : name ∉ reserved)
    (h : v ∈ variants name n) : Text.isWord v = true ∧ v ∉ reserved := by
  rcases List.mem_cons.1 h with rfl | h
  · exact ⟨hw, hr⟩
  · obtain ⟨i, -, rfl⟩ := List.mem_map.1 h
    refine ⟨?_, fun h => underscore_not_mem_reserved h (by simp)⟩
    rw [Text.isWord_iff] at hw ⊢
    obtain ⟨hne, hall, hhead⟩ := hw
    refine ⟨by simp, ?_, ?_⟩
    · intro c hc
      rcases List.mem_append.1 hc with hc | hc
      · exact hall c hc
      · rcases List.mem_cons.1 hc with rfl | hc
        · decide
        · exact Text.isWordChar_of_mem_ofNat hc
    · intro c hc
      rw [List.head?_append_of_ne_nil _ hne] at hc
      exact hhead c hc

/-! ### Namings -/

/-- No id and no name occurs twice, and every name is a word that is not reserved. -/
structure Proper (names : Naming) : Prop where
  keys : names.keys.Nodup
  used : names.used.Nodup
  words : ∀ w ∈ names.used, Text.isWord w = true ∧ w ∉ reserved

theorem Proper.nil : Proper [] := ⟨List.nodup_nil, List.nodup_nil, fun _ h => absurd h List.not_mem_nil⟩

variable {names : Naming}

theorem assign_of_mem {id : Id} (h : id ∈ names.keys) (label : Text) : names.assign id label = names := by
  obtain ⟨w, hw⟩ := Keyed.mem_keys_iff.1 h
  exact Keyed.upsert_of_get? hw rfl

theorem assign_of_not_mem {id : Id} (h : id ∉ names.keys) (label : Text) :
    names.assign id label = names ++ [(id, unused names.used (base label names.length))] :=
  Keyed.upsert_of_not_mem h

theorem Proper.assign (h : names.Proper) (id : Id) (label : Text) : (names.assign id label).Proper := by
  by_cases hid : id ∈ names.keys
  · rw [assign_of_mem hid]
    exact h
  · rw [assign_of_not_mem hid]
    obtain ⟨hnew, hvariant⟩ := unused_not_mem names.used (base label names.length)
    obtain ⟨hword, hreserved⟩ := isWord_base label names.length
    refine ⟨?_, ?_, ?_⟩
    · rw [Keyed.keys, List.map_append, List.nodup_append_comm]
      exact List.nodup_cons.2 ⟨hid, h.keys⟩
    · rw [Naming.used, List.map_append, List.nodup_append_comm]
      exact List.nodup_cons.2 ⟨hnew, h.used⟩
    · intro w hw
      rw [Naming.used, List.map_append, List.mem_append] at hw
      rcases hw with hw | hw
      · exact h.words w hw
      · rw [List.mem_singleton.1 hw]
        exact isWord_of_mem_variants hword hreserved hvariant

theorem mem_keys_assign {id i : Id} {label : Text} : i ∈ (names.assign id label).keys ↔ i ∈ names.keys ∨ i = id := by
  unfold assign
  rw [Keyed.keys_upsert]
  split
  · rename_i h
    exact ⟨Or.inl, fun h' => h'.elim (fun x => x) fun e => e ▸ h⟩
  · simp

theorem get?_name {id : Id} (hid : id ∈ names.keys) :
    names.get? id = some (names.name id) ∧ names.name id ∈ names.used := by
  obtain ⟨w, hw⟩ := Keyed.mem_keys_iff.1 hid
  rw [name, hw]
  exact ⟨rfl, List.mem_map_of_mem (f := Prod.snd) (Keyed.mem_of_get? hw)⟩

theorem name_assign {i : Id} (hi : i ∈ names.keys) (id : Id) (label : Text) :
    (names.assign id label).name i = names.name i := by
  by_cases hid : i = id
  · rw [← hid, assign_of_mem hi]
  · rw [name, assign, Keyed.get?_upsert, if_neg hid, name]

/-- Different ids have different names. -/
theorem Proper.name_inj (h : names.Proper) {a b : Id} (ha : a ∈ names.keys) (hb : b ∈ names.keys)
    (hab : names.name a = names.name b) : a = b := by
  have hma := Keyed.mem_of_get? (get?_name ha).1
  have hmb := Keyed.mem_of_get? (get?_name hb).1
  have := List.inj_on_of_nodup_map h.used hma hmb hab
  exact congrArg Prod.fst this

/-! ### One node after another -/

/-- The names after some nodes, of which each comes with its id and its label. -/
def assignAll (names : Naming) (nodes : List (Id × Text)) : Naming :=
  nodes.foldl (fun names n => names.assign n.1 n.2) names

theorem Proper.assignAll (h : names.Proper) (nodes : List (Id × Text)) : (names.assignAll nodes).Proper := by
  induction nodes generalizing names with
  | nil => exact h
  | cons n nodes ih => exact ih (h.assign n.1 n.2)

theorem mem_keys_assignAll {nodes : List (Id × Text)} {i : Id} :
    i ∈ (names.assignAll nodes).keys ↔ i ∈ names.keys ∨ i ∈ nodes.map Prod.fst := by
  induction nodes generalizing names with
  | nil => simp [assignAll]
  | cons n nodes ih =>
    show i ∈ ((names.assign n.1 n.2).assignAll nodes).keys ↔ _
    rw [ih, mem_keys_assign, List.map_cons, List.mem_cons, or_assoc]

theorem name_assignAll {i : Id} (hi : i ∈ names.keys) (nodes : List (Id × Text)) :
    (names.assignAll nodes).name i = names.name i := by
  induction nodes generalizing names with
  | nil => rfl
  | cons n nodes ih =>
    have hassigned : i ∈ (names.assign n.1 n.2).keys := mem_keys_assign.2 (Or.inl hi)
    exact (ih hassigned).trans (name_assign hi n.1 n.2)

end Naming

end DiagramText.Flowchart

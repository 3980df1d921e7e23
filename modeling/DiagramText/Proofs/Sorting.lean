import DiagramText.Sorting
import Mathlib.Data.List.Nodup

/-!
# What sorting keeps

Elements that the order puts at one place stay in their order (`filter_sortBy`), and leaving out elements does not
disturb the others (`filter_sortBy_eq`).  Where the order tells all elements apart, only one permutation ascends, and it
is what sorting gives (`sortBy_eq_of_perm`), however the elements were arranged before (`sortBy_perm_eq`).
-/

namespace DiagramText

variable {α : Type} {le : α → α → Bool}

theorem mem_sortBy {l : List α} {a : α} : a ∈ sortBy le l ↔ a ∈ l := (sortBy_perm le l).mem_iff

private theorem filter_insertBy {p : α → Bool} {a : α} {l : List α} (h : ∀ b ∈ l, p a → p b → le a b) :
    (insertBy le a l).filter p = (a :: l).filter p := by
  induction l with
  | nil => rfl
  | cons b l ih =>
    unfold insertBy
    split
    · rfl
    · rename_i hab
      rw [List.filter_cons, ih fun c hc => h c (by simp [hc]), List.filter_cons, List.filter_cons, List.filter_cons]
      by_cases ha : p a = true <;> by_cases hb : p b = true
      · exact absurd (h b (by simp) ha hb) hab
      · simp [hb]
      · simp [ha]
      · simp [ha, hb]

/-- Sorting does not change the order of elements among which it makes no difference. -/
theorem filter_sortBy {p : α → Bool} {l : List α} (h : ∀ a ∈ l, ∀ b ∈ l, p a → p b → le a b) :
    (sortBy le l).filter p = l.filter p := by
  induction l with
  | nil => rfl
  | cons a l ih =>
    have hins : ∀ b ∈ sortBy le l, p a → p b → le a b := fun b hb =>
      h a (by simp) b (by simp [mem_sortBy.1 hb])
    rw [sortBy, filter_insertBy hins, List.filter_cons, List.filter_cons,
      ih fun b hb c hc => h b (by simp [hb]) c (by simp [hc])]

private theorem filter_insertBy_of_pairwise (trans : ∀ a b c, le a b → le b c → le a c) {p : α → Bool} (a : α)
    {l : List α} (hl : l.Pairwise fun x y => le x y) :
    (insertBy le a l).filter p = if p a then insertBy le a (l.filter p) else l.filter p := by
  induction l with
  | nil => simp [insertBy, List.filter_cons]
  | cons b l ih =>
    rw [List.pairwise_cons] at hl
    by_cases hab : le a b
    · -- what is left behind `b` comes behind `a` too
      have hstart : ∀ m : List α, (∀ c ∈ m, le a c) → insertBy le a m = a :: m := by
        intro m hm
        cases m with
        | nil => rfl
        | cons c m => rw [insertBy, if_pos (hm c List.mem_cons_self)]
      have hbehind : ∀ c ∈ (b :: l).filter p, le a c := by
        intro c hc
        rcases List.mem_cons.1 (List.mem_filter.1 hc).1 with rfl | hc
        · exact hab
        · exact trans a b c hab (hl.1 c hc)
      rw [hstart _ hbehind, insertBy, if_pos hab, List.filter_cons]
    · rw [insertBy, if_neg hab, List.filter_cons, List.filter_cons, ih hl.2]
      by_cases ha : p a = true <;> by_cases hb : p b = true <;> simp [ha, hb, insertBy, hab]

/-- What is left of a sorted list is what is left of the list, sorted. -/
theorem filter_sortBy_eq (trans : ∀ a b c, le a b → le b c → le a c) (total : ∀ a b, le a b ∨ le b a) (p : α → Bool)
    (l : List α) : (sortBy le l).filter p = sortBy le (l.filter p) := by
  induction l with
  | nil => rfl
  | cons a l ih =>
    rw [sortBy, filter_insertBy_of_pairwise trans a (pairwise_sortBy trans total l), ih, List.filter_cons]
    split
    · rfl
    · rfl

private theorem map_insertBy {β : Type} {le : β → β → Bool} (f : α → β) (a : α) (l : List α) :
    (insertBy (fun a b => le (f a) (f b)) a l).map f = insertBy le (f a) (l.map f) := by
  induction l with
  | nil => rfl
  | cons b l ih =>
    unfold insertBy
    rw [List.map_cons]
    dsimp only
    split
    · rw [List.map_cons, List.map_cons]
    · rw [List.map_cons, ih]

/-- Sorting by a key sorts the keys. -/
theorem map_sortBy {β : Type} {le : β → β → Bool} (f : α → β) (l : List α) :
    (sortBy (fun a b => le (f a) (f b)) l).map f = sortBy le (l.map f) := by
  induction l with
  | nil => rfl
  | cons a l ih => rw [sortBy, map_insertBy, ih, List.map_cons, sortBy]

/-- If the order tells all elements apart, a permutation that ascends is what the list is sorted to. -/
theorem sortBy_eq_of_perm {l m : List α} (trans : ∀ a b c, le a b → le b c → le a c)
    (total : ∀ a b, le a b ∨ le b a) (anti : ∀ a ∈ l, ∀ b ∈ l, le a b → le b a → a = b)
    (hm : m.Pairwise fun x y => le x y) (h : l.Perm m) : sortBy le l = m := by
  have hsorted : (sortBy le l).Pairwise fun x y => le x y := pairwise_sortBy trans total l
  have hperm : (sortBy le l).Perm m := (sortBy_perm le l).trans h
  refine hperm.eq_of_pairwise ?_ hsorted hm
  intro a b ha hb
  exact anti a (mem_sortBy.1 ha) b (h.mem_iff.2 hb)

/-- If the order tells all elements apart, it does not matter how they are arranged before they are sorted. -/
theorem sortBy_perm_eq {l m : List α} (trans : ∀ a b c, le a b → le b c → le a c) (total : ∀ a b, le a b ∨ le b a)
    (anti : ∀ a b, le a b → le b a → a = b) (h : l.Perm m) : sortBy le l = sortBy le m :=
  sortBy_eq_of_perm trans total (fun a _ b _ => anti a b) (pairwise_sortBy trans total m)
    (h.trans (sortBy_perm le m).symm)

/-- So it is too if elements at one place have one key, and no two elements of the list have. -/
theorem sortBy_perm_eq_of_nodup {β : Type} {key : α → β} {l m : List α} (trans : ∀ a b c, le a b → le b c → le a c)
    (total : ∀ a b, le a b ∨ le b a) (hkey : ∀ a b, le a b → le b a → key a = key b) (hl : (l.map key).Nodup)
    (h : l.Perm m) : sortBy le l = sortBy le m := by
  refine sortBy_eq_of_perm trans total ?_ (pairwise_sortBy trans total m) (h.trans (sortBy_perm le m).symm)
  intro a ha b hb hab hba
  exact List.inj_on_of_nodup_map hl ha hb (hkey a b hab hba)

/-- A list that ascends is sorted. -/
theorem sortBy_of_pairwise {l : List α} (h : l.Pairwise fun a b => le a b) : sortBy le l = l := by
  induction l with
  | nil => rfl
  | cons a l ih =>
    rw [List.pairwise_cons] at h
    rw [sortBy, ih h.2]
    cases l with
    | nil => rfl
    | cons b l => rw [insertBy, if_pos (h.1 b List.mem_cons_self)]

end DiagramText

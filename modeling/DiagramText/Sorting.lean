/-!
# Stable sorting

Insertion sort by an order that is given as a test.  Elements that the test puts at one place keep their order.  The
sorted list is a permutation of the list, and its elements ascend.
-/

namespace DiagramText

variable {α : Type}

/-- Puts an element before the first one that it may precede. -/
def insertBy (le : α → α → Bool) (a : α) : List α → List α
  | [] => [a]
  | b :: r => if le a b then a :: b :: r else b :: insertBy le a r

/-- Sorts a list. -/
def sortBy (le : α → α → Bool) : List α → List α
  | [] => []
  | a :: r => insertBy le a (sortBy le r)

theorem insertBy_perm (le : α → α → Bool) (a : α) (l : List α) : (insertBy le a l).Perm (a :: l) := by
  induction l with
  | nil => exact List.Perm.refl _
  | cons b r ih =>
    unfold insertBy
    split
    · exact List.Perm.refl _
    · exact (List.Perm.cons b ih).trans (List.Perm.swap a b r)

theorem sortBy_perm (le : α → α → Bool) (l : List α) : (sortBy le l).Perm l := by
  induction l with
  | nil => exact List.Perm.refl _
  | cons a r ih => exact (insertBy_perm le a _).trans (List.Perm.cons a ih)

theorem pairwise_insertBy {le : α → α → Bool} (trans : ∀ a b c, le a b → le b c → le a c)
    (total : ∀ a b, le a b ∨ le b a) {a : α} {l : List α} (h : l.Pairwise fun x y => le x y) :
    (insertBy le a l).Pairwise fun x y => le x y := by
  induction l with
  | nil => simp [insertBy]
  | cons b r ih =>
    rw [List.pairwise_cons] at h
    unfold insertBy
    split
    · rename_i hab
      refine List.pairwise_cons.2 ⟨?_, List.pairwise_cons.2 h⟩
      intro x hx
      rcases List.mem_cons.1 hx with rfl | hx
      · exact hab
      · exact trans a b x hab (h.1 x hx)
    · rename_i hab
      refine List.pairwise_cons.2 ⟨?_, ih h.2⟩
      intro x hx
      rcases List.mem_cons.1 ((insertBy_perm le a r).mem_iff.1 hx) with rfl | hx
      · exact (total x b).resolve_left hab
      · exact h.1 x hx

theorem pairwise_sortBy {le : α → α → Bool} (trans : ∀ a b c, le a b → le b c → le a c)
    (total : ∀ a b, le a b ∨ le b a) (l : List α) : (sortBy le l).Pairwise fun x y => le x y := by
  induction l with
  | nil => exact List.Pairwise.nil
  | cons a r ih => exact pairwise_insertBy trans total ih

end DiagramText

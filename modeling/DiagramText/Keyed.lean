/-!
# Keyed lists

A list of values under keys in which every key keeps the place where it first came.  The diagrams are built on such
lists: an entity, node or participant that is mentioned again is the one that was mentioned before.
-/

namespace DiagramText

/-- Values under keys, in the order in which the keys first came. -/
abbrev Keyed (κ α : Type) := List (κ × α)

namespace Keyed

variable {κ α : Type} [DecidableEq κ]

/-- The keys in order. -/
def keys (l : Keyed κ α) : List κ := l.map Prod.fst

/-- The value under a key. -/
def get? (l : Keyed κ α) (k : κ) : Option α := (l.find? (·.1 = k)).map Prod.snd

/-- Puts `f` of the old value under the key; a new key comes last. -/
def upsert (k : κ) (f : Option α → α) : Keyed κ α → Keyed κ α
  | [] => [(k, f none)]
  | (j, a) :: r => if j = k then (j, f (some a)) :: r else (j, a) :: upsert k f r

theorem keys_upsert (k : κ) (f : Option α → α) (l : Keyed κ α) :
    keys (upsert k f l) = if k ∈ keys l then keys l else keys l ++ [k] := by
  induction l with
  | nil => simp [upsert, keys]
  | cons p r ih =>
    obtain ⟨j, a⟩ := p
    by_cases h : j = k
    · simp [upsert, keys, h]
    · have h' : ¬ k = j := fun e => h e.symm
      simp only [keys] at ih
      by_cases hk : k ∈ r.map Prod.fst
      · simp [upsert, keys, h, h', ih, hk]
      · simp [upsert, keys, h, h', ih, hk]

/-- Every key once: the first of the elements that share a key. -/
def firsts (key : α → κ) : List α → List α
  | [] => []
  | a :: r => a :: (firsts key r).filter fun b => key b ≠ key a

end Keyed

end DiagramText

import DiagramText.Report

/-!
# Nesting

Subgraphs and blocks are read by calls that stand inside each other, and the stack of calls has an end.  A text in which
more of them are open at once than there is room for is read up to the first one that is too many (`front`): there the
call fails, and reading stops with one error more.  Room is counted in whole subgraphs and whole blocks: what is read
inside one counts as part of it.
-/

namespace DiagramText

/-- Where a subgraph or a block opens: at which place, and which places are behind its word and behind its title. -/
structure Opening where
  place : Place := {}
  title : Place := {}
  behind : Place := {}
deriving DecidableEq, Repr

/-- How a part of a text changes the number of what is open. -/
inductive Turn where
  | down
  | up
  | level
deriving DecidableEq, Repr

/-- The number of what is open behind a turn. -/
def Turn.depth (d : Nat) : Turn → Nat
  | down => d + 1
  | up => d - 1
  | level => d

namespace Depth

variable {σ : Type} (turn : σ → Turn)

/-- The greatest number of what is open at once at an opening among `xs`, if `depth` are open in front of them. -/
def deepest (depth : Nat) : List σ → Nat
  | [] => 0
  | x :: xs => max (if turn x = .down then depth + 1 else 0) (deepest ((turn x).depth depth) xs)

/-- What stands in front of the first opening that is too many, if `depth` are open and there is room for `room`. -/
def front (room depth : Nat) : List σ → List σ
  | [] => []
  | x :: xs => if turn x = .down ∧ room ≤ depth then [] else x :: front room ((turn x).depth depth) xs

/-- The first opening that is too many, and all behind it. -/
def rest (room depth : Nat) : List σ → List σ
  | [] => []
  | x :: xs => if turn x = .down ∧ room ≤ depth then x :: xs else rest room ((turn x).depth depth) xs

variable {turn} {room depth : Nat} {x : σ} {xs : List σ}

theorem front_append_rest : front turn room depth xs ++ rest turn room depth xs = xs := by
  induction xs generalizing depth with
  | nil => rfl
  | cons x xs ih =>
    unfold front rest
    split
    · rfl
    · exact congrArg (x :: ·) ih

/-- Nothing is too many if there is room for all that is open at once. -/
theorem rest_eq_nil : rest turn room depth xs = [] ↔ deepest turn depth xs ≤ room := by
  induction xs generalizing depth with
  | nil => simp [rest, deepest]
  | cons x xs ih =>
    rw [rest, deepest, Nat.max_le, ← ih]
    by_cases hfull : turn x = .down ∧ room ≤ depth
    · rw [if_pos hfull, if_pos hfull.1]
      exact iff_of_false (List.cons_ne_nil x xs) fun h => Nat.not_lt.2 hfull.2 h.1
    · rw [if_neg hfull]
      refine (and_iff_right ?_).symm
      split
      · rename_i hdown
        exact Nat.lt_of_not_le fun hroom => hfull ⟨hdown, hroom⟩
      · exact Nat.zero_le room

theorem front_of_deepest (h : deepest turn depth xs ≤ room) : front turn room depth xs = xs := by
  have hall : front turn room depth xs ++ rest turn room depth xs = xs := front_append_rest
  rwa [rest_eq_nil.2 h, List.append_nil] at hall

/-- The rest begins where something opens. -/
theorem turn_of_rest {y : σ} {ys : List σ} (h : rest turn room depth xs = y :: ys) : turn y = .down := by
  induction xs generalizing depth with
  | nil => cases h
  | cons x xs ih =>
    unfold rest at h
    split at h
    · rename_i hdown
      cases h
      exact hdown.1
    · exact ih h

end Depth

/-- The stack of calls: how many subgraphs or blocks can be open at once, whether the title of one that is too many is
still read, and what is reported where the stack ends. -/
structure Stack where
  subgraphs : Nat := 490
  blocks : Nat := 325
  /-- There is room for a subgraph that stands in no other. -/
  subgraphs_pos : 0 < subgraphs := by exact Nat.zero_lt_succ _
  titled : Bool := true
  report : Text := "maximum recursion depth exceeded".toList
  /-- The calls that stood inside each other, as they are logged. -/
  trace : Text := []
deriving DecidableEq, Repr

namespace Stack

instance : Inhabited Stack := ⟨{}⟩

/-- Where reading stops at an opening that is too many. -/
def place (stack : Stack) (o : Opening) : Place := if stack.titled then o.behind else o.title

/-- The error of an opening that is too many. -/
def error (stack : Stack) (o : Opening) : ParseError := ⟨stack.place o, .overflow stack.report⟩

/-- What is noted for an opening that is too many. -/
def notice (stack : Stack) (_ : Opening) : Notice := .unexpected stack.trace

end Stack

end DiagramText

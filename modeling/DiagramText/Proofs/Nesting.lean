import DiagramText.Nesting
import DiagramText.Proofs.Report

/-!
# How far the stack reaches

Reading stops at an opening if and only if more is open at once than there is room for (`Depth.stop_eq_none`).  How far
it comes depends on what opens and closes and on nothing else (`Depth.front_map`, `Depth.rest_map`), so moving the
places of statements moves the error of such an opening, too.
-/

namespace DiagramText

namespace Depth

variable {σ τ : Type} {turn : σ → Turn} {room depth : Nat} {x : σ} {xs ys : List σ}

/-- The number of what is open behind a list. -/
def depthBehind (turn : σ → Turn) (depth : Nat) (xs : List σ) : Nat := xs.foldl (fun d x => (turn x).depth d) depth

theorem depthBehind_cons : depthBehind turn depth (x :: xs) = depthBehind turn ((turn x).depth depth) xs := rfl

theorem front_prefix : front turn room depth xs <+: xs := ⟨_, front_append_rest⟩

/-- If what opens says where, reading stops nowhere if and only if there is room for all that is open at once. -/
theorem stop_eq_none {opening? : σ → Option Opening} (h : ∀ x, turn x = .down → (opening? x).isSome) :
    (rest turn room depth xs).head?.bind opening? = none ↔ deepest turn depth xs ≤ room := by
  rw [← rest_eq_nil]
  cases hrest : rest turn room depth xs with
  | nil => simp
  | cons y ys =>
    obtain ⟨o, ho⟩ := Option.isSome_iff_exists.1 (h y (turn_of_rest hrest))
    simp [ho]

section

variable {turn' : τ → Turn} {g : σ → τ} (h : ∀ x, turn' (g x) = turn x)

include h

theorem front_map : front turn' room depth (xs.map g) = (front turn room depth xs).map g := by
  induction xs generalizing depth with
  | nil => rfl
  | cons x xs ih =>
    rw [List.map_cons, front, front, h]
    split
    · rfl
    · rw [ih, List.map_cons]

theorem rest_map : rest turn' room depth (xs.map g) = (rest turn room depth xs).map g := by
  induction xs generalizing depth with
  | nil => rfl
  | cons x xs ih =>
    rw [List.map_cons, rest, rest, h]
    split
    · rfl
    · exact ih

theorem deepest_map : deepest turn' depth (xs.map g) = deepest turn depth xs := by
  induction xs generalizing depth with
  | nil => rfl
  | cons x xs ih => rw [List.map_cons, deepest, deepest, h, ih]

end

/-- Where nothing opens, the depth does not matter. -/
theorem deepest_eq_zero (h : ∀ x ∈ xs, turn x ≠ .down) : deepest turn depth xs = 0 := by
  induction xs generalizing depth with
  | nil => rfl
  | cons x xs ih =>
    rw [deepest, if_neg (h x List.mem_cons_self), ih fun y hy => h y (List.mem_cons_of_mem x hy)]
    rfl

/-- Where nothing opens or closes, the depth remains. -/
theorem depthBehind_of_level (h : ∀ x ∈ xs, turn x = .level) : depthBehind turn depth xs = depth := by
  induction xs with
  | nil => rfl
  | cons x xs ih =>
    rw [depthBehind_cons, h x List.mem_cons_self]
    exact ih fun y hy => h y (List.mem_cons_of_mem x hy)

theorem deepest_append :
    deepest turn depth (xs ++ ys) = max (deepest turn depth xs) (deepest turn (depthBehind turn depth xs) ys) := by
  induction xs generalizing depth with
  | nil => simp [deepest, depthBehind]
  | cons x xs ih =>
    rw [List.cons_append, deepest, deepest, ih, Nat.max_assoc]
    rfl

theorem depthBehind_append : depthBehind turn depth (xs ++ ys) = depthBehind turn (depthBehind turn depth xs) ys :=
  List.foldl_append

/-- There is room for all that is open at once if there is room at each opening. -/
theorem deepest_le_iff : deepest turn depth xs ≤ room ↔
    ∀ before x after, xs = before ++ x :: after → turn x = .down → depthBehind turn depth before < room := by
  induction xs generalizing depth with
  | nil => simp [deepest]
  | cons y ys ih =>
    rw [deepest, Nat.max_le, ih]
    constructor
    · rintro ⟨hfirst, hrest⟩ before x after hsplit hdown
      cases before with
      | nil =>
        obtain ⟨rfl, rfl⟩ := List.cons_eq_cons.1 hsplit
        rw [if_pos hdown] at hfirst
        exact hfirst
      | cons z before =>
        obtain ⟨rfl, rfl⟩ := List.cons_eq_cons.1 hsplit
        exact hrest before x after rfl hdown
    · intro h
      refine ⟨?_, fun before x after hsplit => h (y :: before) x after (congrArg (y :: ·) hsplit)⟩
      split
      · rename_i hdown
        exact h [] y ys rfl hdown
      · exact Nat.zero_le room

/-- What opens and closes in a list, with nothing between. -/
def turns (turn : σ → Turn) (xs : List σ) : List Turn := (xs.map turn).filter (· != .level)

theorem turns_cons : turns turn (x :: xs) = (if turn x = .level then [] else [turn x]) ++ turns turn xs := by
  cases h : turn x <;> simp [turns, h]

/-- How deep a list goes depends on its turns only. -/
theorem deepest_turns : deepest id depth (turns turn xs) = deepest turn depth xs := by
  induction xs generalizing depth with
  | nil => rfl
  | cons x xs ih =>
    rw [turns_cons, deepest, ← ih]
    cases turn x with
    | level => simp [Turn.depth]
    | down => rfl
    | up => rfl

theorem depthBehind_turns : depthBehind id depth (turns turn xs) = depthBehind turn depth xs := by
  induction xs generalizing depth with
  | nil => rfl
  | cons x xs ih =>
    rw [turns_cons, depthBehind_append, depthBehind_cons, ← ih]
    cases turn x <;> rfl

/-! ### Where reading stops -/

theorem deepest_front : deepest turn depth (front turn room depth xs) ≤ room := by
  induction xs generalizing depth with
  | nil => exact Nat.zero_le room
  | cons x xs ih =>
    rw [front]
    split
    · exact Nat.zero_le room
    · rename_i hroom
      rw [deepest]
      refine Nat.max_le.2 ⟨?_, ih⟩
      split
      · rename_i hdown
        exact Nat.lt_of_not_le fun hle => hroom ⟨hdown, hle⟩
      · exact Nat.zero_le room

/-- Behind what is read the room is used up if something is left. -/
theorem le_depthBehind_front (h : rest turn room depth xs ≠ []) :
    room ≤ depthBehind turn depth (front turn room depth xs) := by
  induction xs generalizing depth with
  | nil => exact absurd rfl h
  | cons x xs ih =>
    rw [rest] at h
    rw [front]
    split
    · rename_i hroom
      exact hroom.2
    · rename_i hroom
      rw [if_neg hroom] at h
      exact ih h

/-- No more is open behind a list than in front of it, or at once in it. -/
theorem depthBehind_le : depthBehind turn depth xs ≤ max depth (deepest turn depth xs) := by
  induction xs generalizing depth with
  | nil => exact Nat.le_max_left _ _
  | cons x xs ih =>
    have hrest : depthBehind turn depth (x :: xs) ≤
        max ((turn x).depth depth) (deepest turn ((turn x).depth depth) xs) := ih
    have hstep : (turn x).depth depth ≤ max depth (if turn x = .down then depth + 1 else 0) := by
      cases turn x <;> simp [Turn.depth]
    rw [deepest]
    omega

/-- If only one opening is left, it is the one that is too many. -/
theorem deepest_le_of_rest (h : rest turn room 0 xs = [x]) : deepest turn 0 xs ≤ room + 1 := by
  have hall : front turn room 0 xs ++ rest turn room 0 xs = xs := front_append_rest
  have hfront : deepest turn 0 (front turn room 0 xs) ≤ room := deepest_front
  have hbehind : depthBehind turn 0 (front turn room 0 xs) ≤ max 0 (deepest turn 0 (front turn room 0 xs)) :=
    depthBehind_le
  rw [h] at hall
  rw [← hall, deepest_append, deepest, deepest, Nat.max_zero]
  split <;> omega

theorem front_append (h : deepest turn depth xs ≤ room) :
    front turn room depth (xs ++ ys) = xs ++ front turn room (depthBehind turn depth xs) ys := by
  induction xs generalizing depth with
  | nil => rfl
  | cons x xs ih =>
    rw [deepest, Nat.max_le] at h
    have hroom : ¬ (turn x = .down ∧ room ≤ depth) := by
      rintro ⟨hdown, hle⟩
      rw [if_pos hdown] at h
      omega
    rw [List.cons_append, front, if_neg hroom, ih h.2]
    rfl

theorem rest_append (h : deepest turn depth xs ≤ room) :
    rest turn room depth (xs ++ ys) = rest turn room (depthBehind turn depth xs) ys := by
  have hall : front turn room depth (xs ++ ys) ++ rest turn room depth (xs ++ ys) = xs ++ ys := front_append_rest
  have hys : front turn room (depthBehind turn depth xs) ys ++ rest turn room (depthBehind turn depth xs) ys = ys :=
    front_append_rest
  rw [front_append h, List.append_assoc] at hall
  exact List.append_cancel_left ((List.append_cancel_left hall).trans hys.symm)

/-- What is read in front of an opening for which no room is left. -/
theorem front_append_of_full (h : deepest turn depth xs ≤ room) (hfull : room ≤ depthBehind turn depth xs)
    (hdown : turn x = .down) (ys : List σ) :
    front turn room depth (xs ++ x :: ys) = xs ∧ rest turn room depth (xs ++ x :: ys) = x :: ys := by
  rw [front_append h, rest_append h, front, rest, if_pos ⟨hdown, hfull⟩, if_pos ⟨hdown, hfull⟩]
  exact ⟨List.append_nil xs, rfl⟩

/-! ### Closed parts -/

/-- All that is opened in a part of a text is closed there, and no more than `room` is open at once. -/
structure Closed (turn : σ → Turn) (room : Nat) (xs : List σ) : Prop where
  fits : deepest turn 0 xs ≤ room
  closes : depthBehind turn 0 xs = 0

namespace Closed

theorem of_level (h : ∀ x ∈ xs, turn x = .level) : Closed turn room xs where
  fits := by
    rw [deepest_eq_zero fun x hx => by rw [h x hx]; decide]
    exact Nat.zero_le room
  closes := depthBehind_of_level h

/-- An opening and its closing, with nothing that opens between them. -/
theorem of_pair {o c : σ} (ho : turn o = .down) (hc : turn c = .up) (h : ∀ x ∈ xs, turn x = .level) :
    Closed turn 1 (o :: xs ++ [c]) where
  fits := by
    rw [List.cons_append, deepest, deepest_append, deepest_eq_zero fun x hx => by rw [h x hx]; decide]
    simp [ho, hc, deepest]
  closes := by
    rw [List.cons_append, depthBehind_cons, depthBehind_append, depthBehind_of_level h, depthBehind_cons, ho, hc]
    rfl

theorem append (h : Closed turn room xs) (h' : Closed turn room ys) : Closed turn room (xs ++ ys) where
  fits := by
    rw [deepest_append, h.closes]
    exact Nat.max_le.2 ⟨h.fits, h'.fits⟩
  closes := by rw [depthBehind_append, h.closes, h'.closes]

theorem flatMap {α : Type} {l : List α} {f : α → List σ} (h : ∀ a ∈ l, Closed turn room (f a)) :
    Closed turn room (l.flatMap f) := by
  induction l with
  | nil => exact of_level (by simp)
  | cons a l ih => exact (h a List.mem_cons_self).append (ih fun b hb => h b (List.mem_cons_of_mem a hb))

end Closed

end Depth

/-! ### Places -/

/-- The opening with its places moved. -/
def Opening.move (f : Place → Place) (o : Opening) : Opening := ⟨f o.place, f o.title, f o.behind⟩

theorem Stack.error_move (stack : Stack) (f : Place → Place) (o : Opening) :
    stack.error (o.move f) = (stack.error o).move f := by
  have hplace : stack.place (o.move f) = f (stack.place o) := by
    unfold place
    split <;> rfl
  rw [error, hplace]
  rfl

end DiagramText

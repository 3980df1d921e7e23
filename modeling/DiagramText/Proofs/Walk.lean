import DiagramText.Proofs.Nesting

/-!
# Calls and walks

A reader that is given no measure might run for ever.  Here it is told how deep its calls and the rounds of its loops
may stand inside each other, and gives up with `none` where it would go deeper.  It comes back if some depth is enough,
and the result is then the same at every depth from there on (`ComesBack`).

A reader that stands at some tokens takes up the first of them, finds what they say, and leaves the others.  A `Walk`
ties this to the list of all that is read from a token on: what is found comes first in it, and what is read at the
tokens that are left comes behind.  Walks that follow each other are one walk (`Walk.trans`).
-/

namespace DiagramText

/-- A call that may go `k` deep, or deeper, comes back with the result `r`. -/
def ComesBack {α : Type} (call : Nat → Option α) (k : Nat) (r : α) : Prop := ∀ n, k ≤ n → call n = some r

namespace ComesBack

variable {α : Type} {call : Nat → Option α} {k l : Nat} {r : α}

theorem mono (h : ComesBack call k r) (hkl : k ≤ l) : ComesBack call l r := fun n hn => h n (Nat.le_trans hkl hn)

/-- One step down, the calls inside have a depth of `k` left. -/
theorem step (h : ∀ n, k ≤ n → call (n + 1) = some r) : ComesBack call (k + 1) r := by
  intro n hn
  cases n with
  | zero => omega
  | succ n => exact h n (Nat.le_of_succ_le_succ hn)

end ComesBack

/-- Reading at the tokens `ts` finds `found` and leaves the tokens `us`; `before` is all that is read from `ts` on,
`behind` all that is read from `us` on. -/
structure Walk {κ σ : Type} (before behind : List (Token κ) → List σ) (ts : List (Token κ)) (found : List σ)
    (us : List (Token κ)) : Prop where
  suffix : us <:+ ts
  eq : before ts = found ++ behind us

namespace Walk

variable {κ σ : Type} {f g h : List (Token κ) → List σ} {ts us vs : List (Token κ)} {xs ys : List σ}

theorem trans (hfirst : Walk f g ts xs us) (hnext : Walk g h us ys vs) : Walk f h ts (xs ++ ys) vs where
  suffix := hnext.suffix.trans hfirst.suffix
  eq := by rw [hfirst.eq, hnext.eq, List.append_assoc]

/-- Nothing is found in tokens that are skipped. -/
theorem skip {p : κ → Bool} (hskip : f (skipTokens p ts) = f ts) : Walk f f ts [] (skipTokens p ts) where
  suffix := skipTokens_suffix p ts
  eq := hskip.symm

/-- Where no token is left, nothing is found. -/
theorem of_nil (hnil : f [] = []) (hwalk : Walk f g [] xs us) : xs = [] ∧ us = [] := by
  have heq := hwalk.eq
  rw [hnil] at heq
  exact ⟨(List.append_eq_nil_iff.1 heq.symm).1, List.suffix_nil.1 hwalk.suffix⟩

end Walk

/-- How a call ends, and the tokens that are left then. -/
inductive Ending (κ : Type) where
  | returned (rest : List (Token κ))
  /-- An error is raised. -/
  | raised (rest : List (Token κ))

/-- The tokens that are left. -/
def Ending.rest {κ : Type} : Ending κ → List (Token κ)
  | returned rest => rest
  | raised rest => rest

/-- What limits a recursive reader: the room that the stack has for subgraphs or blocks, what statements open and close,
and where the text ends. -/
structure Limits (σ : Type) where
  stack : Stack
  room : Nat
  turn : σ → Turn
  opening? : σ → Option Opening
  finish : Place

namespace Limits

variable {κ σ : Type} {l : Limits σ} {depth depth' depth'' : Nat} {f g h : List (Token κ) → List σ}
  {ts us : List (Token κ)} {xs ys : List σ} {e : Ending κ}

/-- Among statements read from the tokens `ts` on, with `depth` subgraphs or blocks open in front of them, the stack
ends at the first opening that is too many, where the tokens `us` are left: behind the opening stand all statements that
are not read, and if there are any, so do tokens. -/
inductive Overflows (l : Limits σ) (depth : Nat) (all : List σ) (us : List (Token κ)) : Prop where
  | intro {x : σ} {more : List σ} {o : Opening} (rest : Depth.rest l.turn l.room depth all = x :: more)
      (opening : l.opening? x = some o) (place : startOf l.finish us = l.stack.place o) (left : us = [] → more = [])

/-- How far a call comes from the tokens `ts` on, with `depth` subgraphs or blocks open in front of them and `depth'`
behind; `f` is all that is read from `ts` on, and `g` all that is read behind. -/
inductive Course (l : Limits σ) (depth : Nat) (f : List (Token κ) → List σ) (ts : List (Token κ)) (found : List σ)
    (depth' : Nat) (g : List (Token κ) → List σ) : Ending κ → Prop where
  /-- There was room for all that was found.  At the end of the text it does not matter what is open. -/
  | returned {us : List (Token κ)} (walk : Walk f g ts found us) (fits : Depth.deepest l.turn depth found ≤ l.room)
      (behind : us = [] ∨ Depth.depthBehind l.turn depth found = depth') :
    Course l depth f ts found depth' g (.returned us)
  | raised {us : List (Token κ)} (suffix : us <:+ ts) (front : Depth.front l.turn l.room depth (f ts) = found)
      (overflows : l.Overflows depth (f ts) us) : Course l depth f ts found depth' g (.raised us)

namespace Course

theorem suffix (hcall : l.Course depth f ts xs depth' g e) : e.rest <:+ ts := by
  cases hcall with
  | returned walk => exact walk.suffix
  | raised hsuffix => exact hsuffix

/-- If nothing is read at the end of the text, two calls that follow each other are one. -/
theorem trans (hnil : g [] = []) (hfirst : l.Course depth f ts xs depth' g (.returned us))
    (hnext : l.Course depth' g us ys depth'' h e) : l.Course depth f ts (xs ++ ys) depth'' h e := by
  cases hfirst with
  | returned walk fits behind =>
    cases hnext with
    | returned walk' fits' behind' =>
      rcases behind with rfl | rfl
      · -- at the end of the text the second call finds nothing
        obtain ⟨rfl, rfl⟩ := walk'.of_nil hnil
        exact .returned (walk.trans walk') (by rwa [List.append_nil]) (.inl rfl)
      · refine .returned (walk.trans walk') ?_ ?_
        · rw [Depth.deepest_append]
          exact Nat.max_le.2 ⟨fits, fits'⟩
        · rwa [Depth.depthBehind_append]
    | raised hsuffix hfront hover =>
      obtain ⟨hrest, opening, place, left⟩ := hover
      rcases behind with rfl | rfl
      · rw [hnil] at hrest
        cases hrest
      · refine .raised (hsuffix.trans walk.suffix) ?_ ⟨?_, opening, place, left⟩
        · rw [walk.eq, Depth.front_append fits, hfront]
        · rw [walk.eq, Depth.rest_append fits, hrest]

/-- Where no token is left, it does not matter what is open. -/
theorem at_end (hnil : g [] = []) (hnil' : h [] = []) (hcall : l.Course depth f ts xs depth' g (.returned [])) :
    l.Course depth f ts xs depth'' h (.returned []) := by
  cases hcall with
  | returned walk fits =>
    refine .returned ⟨walk.suffix, ?_⟩ fits (.inl rfl)
    rw [walk.eq, hnil, hnil']

/-- Where an error is raised, it does not matter how reading would go on. -/
theorem raise (hcall : l.Course depth f ts xs depth' g (.raised us)) :
    l.Course depth f ts xs depth'' h (.raised us) := by
  cases hcall with
  | raised hsuffix hfront hover => exact .raised hsuffix hfront hover

/-- An error is raised only where all the room is used up. -/
theorem full (hcall : l.Course depth f ts xs depth' g (.raised us)) :
    l.room ≤ Depth.depthBehind l.turn depth xs := by
  cases hcall with
  | raised _ hfront hover =>
    obtain ⟨hrest, -, -, -⟩ := hover
    rw [← hfront]
    exact Depth.le_depthBehind_front (by rw [hrest]; exact List.cons_ne_nil _ _)

end Course

/-- How the reading of a whole text ends, of which `all` are the statements: at the end of the text if there is room for
all that is open at once, or else where the stack ends. -/
inductive Stops (l : Limits σ) (all : List σ) : Ending κ → Prop where
  | finished (fits : Depth.deepest l.turn 0 all ≤ l.room) : Stops l all (.returned [])
  | overflowed {us : List (Token κ)} (overflows : l.Overflows 0 all us) : Stops l all (.raised us)

/-- A call that begins with nothing open and does not return before the end of the text finds what stands in front of
the first opening that is too many. -/
theorem Course.stops (hnil : g [] = []) (hcall : l.Course 0 f ts xs depth' g e)
    (hend : ∀ us, e = .returned us → us = []) :
    xs = Depth.front l.turn l.room 0 (f ts) ∧ l.Stops (f ts) e := by
  cases hcall with
  | returned walk fits =>
    obtain rfl := hend _ rfl
    rw [walk.eq, hnil, List.append_nil]
    exact ⟨(Depth.front_of_deepest fits).symm, .finished fits⟩
  | raised _ hfront hover => exact ⟨hfront.symm, .overflowed hover⟩

/-- A text in which more is open at once than there is room for, also in front of the last opening that is too many, is
not read to its end. -/
theorem Stops.exists_left {all : List σ} (hstops : l.Stops all e) (hdeep : l.room + 1 < Depth.deepest l.turn 0 all) :
    ∃ us, e = .raised us ∧ us ≠ [] := by
  cases hstops with
  | finished fits => omega
  | overflowed hover =>
    obtain ⟨hrest, -, -, hleft⟩ := hover
    refine ⟨_, rfl, fun hnil => ?_⟩
    obtain rfl := hleft hnil
    have hle := Depth.deepest_le_of_rest hrest
    omega

end Limits

end DiagramText

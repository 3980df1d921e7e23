import DiagramText.Proofs.Spans

/-!
# Cursors in a text

A cursor counts lines and columns as it goes, character by character, and also the characters that it has passed.  The
two do not drift apart: wherever it has come to, the number of characters says what is left and gives the place
(`Cursor.StandsIn`), as the breaks in front of it count the lines and the last of them begins the line
(`Text.eq_placeAt_iff`).  Passing one character keeps this, and every request passes some characters one after the
other, so it holds behind all requests, whatever they ask for (`Cursor.tracks_requests`).
-/

namespace DiagramText

namespace Text

/-! ### The line in front of a character -/

/-- The line in which the character number `n` of a text stands begins with the character number `m`: a line break is
in front of it, or nothing at all, and there is no line break between the two. -/
structure LineBegins (s : Text) (m n : Nat) : Prop where
  le : m ≤ n
  first : m = 0 ∨ s[m - 1]? = some '\n'
  unbroken : '\n' ∉ s.extract m n

private theorem LineBegins.le_of_lineBegins {s : Text} {k m n : Nat} (h : s.LineBegins m n) (h' : s.LineBegins k n) :
    k ≤ m := by
  rcases h'.first with hzero | hbreak
  · omega
  · -- otherwise the break in front of number `k` would be in the line that begins with number `m`
    by_contra hlt
    have hle := h'.le
    refine h.unbroken (List.mem_iff_getElem?.2 ⟨k - 1 - m, ?_⟩)
    rw [List.extract_eq_take_drop, List.getElem?_take, if_pos (by omega), List.getElem?_drop,
      show m + (k - 1 - m) = k - 1 by omega, hbreak]

/-- A line begins with one character only. -/
theorem LineBegins.unique {s : Text} {k m n : Nat} (h : s.LineBegins m n) (h' : s.LineBegins k n) : m = k :=
  Nat.le_antisymm (h'.le_of_lineBegins h) (h.le_of_lineBegins h')

private theorem exists_lineBegins {s : Text} {n : Nat} (hn : n ≤ s.length) :
    ∃ m, s.LineBegins m n ∧ (placeAt s n).column = n - m + 1 := by
  -- on the number of characters: a break begins a line behind itself, any other character makes the line longer
  induction n with
  | zero => exact ⟨0, ⟨Nat.le_refl 0, Or.inl rfl, by simp⟩, rfl⟩
  | succ n ih =>
    obtain ⟨m, hline, hcolumn⟩ := ih (Nat.le_of_succ_le hn)
    have hnext : (s.drop n).take 1 = [s[n]] := by
      rw [List.drop_eq_getElem_cons hn]
      rfl
    have hstep : placeAt s (n + 1) = (placeAt s n).step s[n] := by
      rw [placeAt_add, hnext]
      rfl
    rw [hstep, Place.step]
    split
    · rename_i hbreak
      refine ⟨n + 1, ⟨Nat.le_refl _, Or.inr ?_, by simp⟩, by simp⟩
      rw [Nat.add_sub_cancel, List.getElem?_eq_getElem hn, hbreak]
    · rename_i hother
      have hle := hline.le
      have hlonger : s.extract m (n + 1) = s.extract m n ++ [s[n]] := by
        rw [List.extract_eq_take_drop, List.extract_eq_take_drop, show n + 1 - m = n - m + 1 by omega, List.take_add,
          List.drop_drop, show m + (n - m) = n by omega, hnext]
      refine ⟨m, ⟨Nat.le_succ_of_le hle, hline.first, ?_⟩, ?_⟩
      · rw [hlonger, List.mem_append, List.mem_singleton, not_or]
        exact ⟨hline.unbroken, Ne.symm hother⟩
      · dsimp only
        omega

/-- The place in front of a character can be read off the text: the breaks before it count the lines, and the
characters from the beginning of its line on count the columns. -/
theorem eq_placeAt_iff {s : Text} {n : Nat} (hn : n ≤ s.length) {p : Place} :
    p = placeAt s n ↔ p.line = (s.take n).count '\n' + 1 ∧ ∃ m, s.LineBegins m n ∧ p.column = n - m + 1 := by
  obtain ⟨m, hline, hcolumn⟩ := exists_lineBegins hn
  constructor
  · rintro rfl
    exact ⟨rfl, m, hline, hcolumn⟩
  · rintro ⟨hp, k, hk, hpcolumn⟩
    cases hline.unique hk
    obtain ⟨line, column⟩ := p
    dsimp only at hp hpcolumn
    rw [← hpcolumn] at hcolumn
    rw [hp, ← hcolumn]
    rfl

/-! ### Runs and strings -/

/-- From the character number `m` of a text on, the characters of a class reach up to the one with the number `n`, and
no farther. -/
structure Reaches (s : Text) (p : Char → Bool) (m n : Nat) : Prop where
  le : m ≤ n
  le_length : n ≤ s.length
  inside : ∀ c ∈ s.extract m n, p c = true
  outside : ∀ c ∈ s[n]?, p c = false

theorem reaches_takeWhile (p : Char → Bool) {s : Text} {m : Nat} (hm : m ≤ s.length) :
    s.Reaches p m (m + ((s.drop m).takeWhile p).length) where
  le := Nat.le_add_right _ _
  le_length := by
    have hle := (List.takeWhile_prefix p (l := s.drop m)).length_le
    rw [List.length_drop] at hle
    omega
  inside := by
    rw [List.extract_eq_take_drop, Nat.add_sub_cancel_left, take_length_takeWhile]
    exact List.all_eq_true.1 List.all_takeWhile
  outside := by
    have hfirst := List.head?_dropWhile_not p (s.drop m)
    rw [← List.head?_drop, ← List.drop_drop, drop_length_takeWhile]
    intro c hc
    rw [Option.mem_def.1 hc] at hfirst
    exact hfirst

/-- A character that can stand in a string. -/
def isStringChar (c : Char) : Bool := c != '"' && c != '\n'

/-- The value of a string is what stands in front of the first quote in all that is taken up. -/
theorem takeWhile_take_quoted (s : Text) : (s.take (quoted s).2).takeWhile (· != '"') = (quoted s).1 := by
  have hunquoted : ∀ c ∈ (quoted s).1, (c != '"') = true := by
    intro c hc
    rw [bne_iff_ne]
    rintro rfl
    exact (isQuotable_iff.1 (isQuotable_quoted s)).1 hc
  have hvalue : s.take (quoted s).1.length = (quoted s).1 := take_length_takeWhile _ s
  unfold quoted at *
  dsimp only at *
  split
  · rename_i hclosed
    obtain ⟨r, hr⟩ := List.head?_eq_some_iff.1 hclosed
    rw [List.take_add, hvalue, hr]
    exact takeWhile_append_exact hunquoted (by simp)
  · rw [Nat.add_zero, hvalue]
    exact takeWhile_exact hunquoted

end Text

namespace Cursor

/-- A string is read as an opening character, a run, and a quote if one stands there. -/
theorem readQuoted_eq (c : Cursor) :
    c.readQuoted =
      let found := (c.advance 1).readWhile Text.isStringChar
      (found.1, if found.2.peek? 0 = some '"' then found.2.advance 1 else found.2) := by
  generalize hk : ((c.rest.drop 1).takeWhile Text.isStringChar).length = k
  have hfound : (c.advance 1).readWhile Text.isStringChar = ((c.rest.drop 1).take k, c.advance (1 + k)) := by
    rw [readWhile, read, rest_advance, advance_advance, hk]
  have hpeek : (c.advance (1 + k)).peek? 0 = ((c.rest.drop 1).drop k).head? := by
    rw [peek?, rest_advance, List.drop_drop, List.head?_eq_getElem?]
  have hvalue : (Text.quoted (c.rest.drop 1)).1 = (c.rest.drop 1).take k := by
    rw [← hk, Text.take_length_takeWhile]
    rfl
  have hcount : (Text.quoted (c.rest.drop 1)).2 = k + if (c.advance (1 + k)).peek? 0 = some '"' then 1 else 0 := by
    rw [hpeek, ← hk]
    rfl
  rw [hfound, readQuoted, hvalue, hcount]
  dsimp only
  split
  · rw [advance_advance, Nat.add_assoc]
  · rfl

/-! ### Where a cursor stands -/

/-- A cursor in front of a text. -/
def ofText (s : Text) : Cursor := ⟨s, 0, {}⟩

/-- The cursor stands in a text: it has passed no more characters than there are, and their number says what is left
and gives the line and the column. -/
structure StandsIn (s : Text) (c : Cursor) : Prop where
  pos_le : c.pos ≤ s.length
  rest : c.rest = s.drop c.pos
  line : c.place.line = (s.take c.pos).count '\n' + 1
  column : ∃ m, s.LineBegins m c.pos ∧ c.place.column = c.pos - m + 1

theorem standsIn_iff {s : Text} {c : Cursor} :
    c.StandsIn s ↔ c.pos ≤ s.length ∧ c.rest = s.drop c.pos ∧ c.place = placeAt s c.pos := by
  constructor
  · intro h
    exact ⟨h.pos_le, h.rest, (Text.eq_placeAt_iff h.pos_le).2 ⟨h.line, h.column⟩⟩
  · rintro ⟨hpos, hrest, hplace⟩
    obtain ⟨hline, hcolumn⟩ := (Text.eq_placeAt_iff hpos).1 hplace
    exact ⟨hpos, hrest, hline, hcolumn⟩

theorem standsIn_ofText (s : Text) : (ofText s).StandsIn s := standsIn_iff.2 ⟨Nat.zero_le _, rfl, rfl⟩

namespace StandsIn

variable {s : Text} {c : Cursor}

theorem pos_advance (h : c.StandsIn s) (n : Nat) : (c.advance n).pos = min (c.pos + n) s.length := by
  have hpos := h.pos_le
  rw [Cursor.pos_advance, h.rest, List.length_drop]
  omega

/-- Going on in a text, a cursor still stands in it. -/
theorem advance (h : c.StandsIn s) (n : Nat) : (c.advance n).StandsIn s := by
  obtain ⟨hpos, hrest, hplace⟩ := standsIn_iff.1 h
  obtain ⟨hrest', hplace'⟩ := rest_place_advance hrest hplace n
  -- a count past the end leads to the end, and behind it there is nothing left and no other place
  have hleft : s.drop (c.pos + n) = s.drop (min (c.pos + n) s.length) := List.drop_eq_drop_iff.2 (by omega)
  rw [standsIn_iff, h.pos_advance, hrest', hplace', placeAt_min]
  exact ⟨Nat.min_le_right _ _, hleft, rfl⟩

theorem atEnd_eq (h : c.StandsIn s) : c.atEnd = (c.pos == s.length) := by
  have hpos := h.pos_le
  rw [Bool.eq_iff_iff, beq_iff_eq, atEnd, List.isEmpty_iff, h.rest, List.drop_eq_nil_iff]
  omega

theorem peek?_eq (h : c.StandsIn s) (n : Nat) : c.peek? n = s[c.pos + n]? := by
  rw [peek?, h.rest, List.getElem?_drop]

/-- What is read is what stands between the old number and the new one. -/
theorem read_eq (h : c.StandsIn s) (n : Nat) : (c.read n).1 = s.extract c.pos (c.read n).2.pos := by
  show c.rest.take n = s.extract c.pos (c.advance n).pos
  rw [Cursor.pos_advance, List.extract_eq_take_drop, Nat.add_sub_cancel_left, ← h.rest]
  exact List.take_eq_take_min

/-- A run is read to its end. -/
theorem reaches_readWhile (h : c.StandsIn s) (p : Char → Bool) : s.Reaches p c.pos (c.readWhile p).2.pos := by
  have hle := (List.takeWhile_prefix p (l := c.rest)).length_le
  have hpos : (c.readWhile p).2.pos = c.pos + ((s.drop c.pos).takeWhile p).length := by
    show (c.advance _).pos = _
    rw [Cursor.pos_advance, Nat.min_eq_left hle, h.rest]
  rw [hpos]
  exact Text.reaches_takeWhile p h.pos_le

end StandsIn

/-! ### Requests -/

/-- What a cursor can be asked. -/
inductive Request where
  /-- Whether nothing is left. -/
  | atEnd
  /-- For the character `n` places ahead. -/
  | peek (n : Nat)
  /-- Whether the rest begins with a part. -/
  | startsWith (part : Text)
  /-- For what is left of the line. -/
  | line
  /-- To read so many characters; a negative number counts as none. -/
  | advance (n : Int)
  /-- To pass over the characters of a set. -/
  | skip (chars : Text)
  /-- To read a run of a class. -/
  | readWhile (p : Char → Bool)
  /-- To read what is left of the line. -/
  | readLine
  /-- To read a string. -/
  | readQuoted

/-- What a cursor answers. -/
inductive Reply where
  | truth (b : Bool)
  | text (t : Text)
  | nothing
deriving DecidableEq, Repr

/-- The reply to a request, and the cursor behind it. -/
def serve (c : Cursor) : Request → Reply × Cursor
  | .atEnd => (.truth c.atEnd, c)
  | .peek n => (.text (c.peek? n).toList, c)
  | .startsWith part => (.truth (c.startsWith part), c)
  | .line => (.text c.line, c)
  | .advance n => let found := c.read n.toNat; (.text found.1, found.2)
  | .skip chars => (.nothing, c.skipWhile chars.contains)
  | .readWhile p => let found := c.readWhile p; (.text found.1, found.2)
  | .readLine => let found := c.readLine; (.text found.1, found.2)
  | .readQuoted => let found := c.readQuoted; (.text found.1, found.2)

/-- The cursor behind some requests, one after the other. -/
def serveAll (c : Cursor) (requests : List Request) : Cursor := requests.foldl (fun c r => (c.serve r).2) c

namespace Request

/-- Where a request leads in a text, from the character number `m` to the one with the number `n`. -/
def Leads (s : Text) (m n : Nat) : Request → Prop
  | atEnd | peek _ | startsWith _ | line => n = m
  | advance k => n = min (m + k.toNat) s.length
  | skip chars => s.Reaches chars.contains m n
  | readWhile p => s.Reaches p m n
  | readLine => s.Reaches (· != '\n') m n
  | readQuoted =>
    -- any character opens a string, and at the end of the text none does
    ∃ k, s.Reaches Text.isStringChar (min (m + 1) s.length) k ∧ n = if s[k]? = some '"' then k + 1 else k

/-- The reply to a request that leads from the character number `m` of a text to the one with the number `n`. -/
def reply (s : Text) (m n : Nat) : Request → Reply
  | atEnd => .truth (m == s.length)
  | peek k => .text s[m + k]?.toList
  | startsWith part => .truth (part.isPrefixOf (s.drop m))
  | line => .text (Text.firstLine (s.drop m))
  | advance _ | readWhile _ | readLine => .text (s.extract m n)
  | skip _ => .nothing
  | readQuoted => .text ((s.extract (m + 1) n).takeWhile (· != '"'))

theorem Leads.le {s : Text} {m n : Nat} {r : Request} (hm : m ≤ s.length) (h : r.Leads s m n) : m ≤ n := by
  cases r with
  | atEnd | peek | startsWith | line => exact Nat.le_of_eq (Eq.symm h)
  | advance k =>
    have hn : n = min (m + k.toNat) s.length := h
    omega
  | skip chars => exact Text.Reaches.le h
  | readWhile p => exact Text.Reaches.le h
  | readLine => exact Text.Reaches.le h
  | readQuoted =>
    obtain ⟨k, hreach, hn⟩ := h
    have hk := hreach.le
    split at hn <;> omega

end Request

/-- All that a request does to a cursor is to let it pass some characters. -/
private theorem exists_serve_eq (c : Cursor) (r : Request) : ∃ n, (c.serve r).2 = c.advance n := by
  cases r with
  | atEnd | peek | startsWith | line => exact ⟨0, rfl⟩
  | advance | skip | readWhile | readLine | readQuoted => exact ⟨_, rfl⟩

namespace StandsIn

variable {s : Text} {c : Cursor}

theorem serve (h : c.StandsIn s) (r : Request) : (c.serve r).2.StandsIn s := by
  obtain ⟨n, hn⟩ := exists_serve_eq c r
  rw [hn]
  exact h.advance n

theorem serveAll (h : c.StandsIn s) (requests : List Request) : (c.serveAll requests).StandsIn s := by
  induction requests generalizing c with
  | nil => exact h
  | cons r requests ih => exact ih (h.serve r)

/-- A string is read up to its closing quote, or as far as the line goes. -/
private theorem leads_readQuoted (h : c.StandsIn s) : Request.readQuoted.Leads s c.pos c.readQuoted.2.pos := by
  have hopened := h.advance 1
  have hreach := hopened.reaches_readWhile Text.isStringChar
  have hfound : ((c.advance 1).readWhile Text.isStringChar).2.StandsIn s := hopened.advance _
  rw [h.pos_advance] at hreach
  refine ⟨_, hreach, ?_⟩
  rw [readQuoted_eq]
  dsimp only
  rw [hfound.peek?_eq, Nat.add_zero]
  split
  · rename_i hquote
    have hlt := (List.getElem?_eq_some_iff.1 hquote).1
    rw [hfound.pos_advance]
    exact Nat.min_eq_left hlt
  · rfl

private theorem readQuoted_fst (h : c.StandsIn s) :
    c.readQuoted.1 = (s.extract (c.pos + 1) c.readQuoted.2.pos).takeWhile (· != '"') := by
  have hbehind : c.rest.drop 1 = s.drop (c.pos + 1) := by
    rw [h.rest, List.drop_drop]
  have htaken : s.extract (c.pos + 1) c.readQuoted.2.pos =
      (s.drop (c.pos + 1)).take (Text.quoted (s.drop (c.pos + 1))).2 := by
    have hle := Text.quoted_length_le (s.drop (c.pos + 1))
    show s.extract (c.pos + 1) (c.advance (1 + (Text.quoted (c.rest.drop 1)).2)).pos = _
    rw [h.pos_advance, hbehind, List.extract_eq_take_drop, List.take_eq_take_iff]
    rw [List.length_drop] at *
    omega
  show (Text.quoted (c.rest.drop 1)).1 = _
  rw [htaken, hbehind, Text.takeWhile_take_quoted]

theorem leads_serve (h : c.StandsIn s) (r : Request) : r.Leads s c.pos (c.serve r).2.pos := by
  cases r with
  | atEnd | peek | startsWith | line => exact rfl
  | advance k => exact h.pos_advance k.toNat
  | skip chars => exact h.reaches_readWhile chars.contains
  | readWhile p => exact h.reaches_readWhile p
  | readLine => exact h.reaches_readWhile (· != '\n')
  | readQuoted => exact h.leads_readQuoted

theorem reply_serve (h : c.StandsIn s) (r : Request) : (c.serve r).1 = r.reply s c.pos (c.serve r).2.pos := by
  cases r with
  | atEnd => exact congrArg Reply.truth h.atEnd_eq
  | peek k => exact congrArg (fun x => Reply.text x.toList) (h.peek?_eq k)
  | startsWith part => exact congrArg (fun t => Reply.truth (part.isPrefixOf t)) h.rest
  | line => exact congrArg (fun t => Reply.text (Text.firstLine t)) h.rest
  | advance k => exact congrArg Reply.text (h.read_eq k.toNat)
  | skip chars => rfl
  | readWhile p => exact congrArg Reply.text (h.read_eq _)
  | readLine => exact congrArg Reply.text (h.read_eq _)
  | readQuoted => exact congrArg Reply.text h.readQuoted_fst

end StandsIn

/-- Behind any requests the cursor stands in its text.  The next one leads it on, never back, to where the text alone
says, and the reply can be read off the text between the old number of characters and the new one. -/
theorem tracks_requests (s : Text) (requests : List Request) (r : Request) :
    let c := (ofText s).serveAll requests
    let next := (c.serve r).2
    c.StandsIn s ∧ next.StandsIn s ∧ c.pos ≤ next.pos ∧ r.Leads s c.pos next.pos ∧
      (c.serve r).1 = r.reply s c.pos next.pos := by
  have h := (standsIn_ofText s).serveAll requests
  have hleads := h.leads_serve r
  exact ⟨h, h.serve r, hleads.le h.pos_le, hleads, h.reply_serve r⟩

/-- A break counts also where it is taken for the quote that opens a string, or skipped. -/
example : (ofText "\n\nbc".toList).serveAll [.readQuoted, .skip ['\n'], .advance (-2), .advance 9] =
    ⟨[], 4, ⟨3, 3⟩⟩ := by decide

end Cursor

end DiagramText

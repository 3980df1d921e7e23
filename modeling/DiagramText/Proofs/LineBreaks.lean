import DiagramText.Proofs.Spans

/-!
# A line break between two texts

Rules look at one line only, so the stretches of a text that is cut at a line break are those of its two parts
(`stretchesFrom_append_break`).  In front of the break a character has the place that it has in the first part alone;
behind it, it has the place that it has in the second part alone, further down by the lines of the first
(`placeAt_append_break`).  So tokenizing the parts is tokenizing the whole (`LineLocal.tokenize_append_break`), in each
dialect (`Dialect.tokenize_eq_join`).
-/

namespace DiagramText

/-! ### Places -/

/-- The place some lines further down. -/
def Place.down (n : Nat) (p : Place) : Place := ⟨p.line + n, p.column⟩

theorem Place.after_down (n : Nat) (p : Place) (s : Text) : (p.down n).after s = (p.after s).down n := by
  induction s generalizing p with
  | nil => rfl
  | cons c s ih =>
    have hstep : (p.down n).step c = (p.step c).down n := by
      unfold step down
      split
      · rw [Nat.add_right_comm]
      · rfl
    show ((p.down n).step c).after s = ((p.step c).after s).down n
    rw [hstep, ih]

theorem placeAt_append_of_le {a : Text} {n : Nat} (hn : n ≤ a.length) (s : Text) :
    placeAt (a ++ s) n = placeAt a n := by
  rw [placeAt, placeAt, List.take_append_of_le_length hn]

/-- Behind a line break the columns are counted anew. -/
theorem placeAt_append_break (a b : Text) (n : Nat) :
    placeAt (a ++ '\n' :: b) (a.length + 1 + n) = (placeAt b n).down (Text.lines a).length := by
  have hbreak : (a ++ '\n' :: b).drop (a.length + 1) = b := by
    rw [← List.drop_drop, List.drop_left, List.drop_succ_cons, List.drop_zero]
  have hstart : placeAt (a ++ '\n' :: b) (a.length + 1) = ({} : Place).down (Text.lines a).length := by
    rw [placeAt_add, placeAt_append_of_le (Nat.le_refl _), List.drop_left, List.take_succ_cons, List.take_zero,
      Text.length_lines, placeAt, List.take_length]
    show Place.mk (a.count '\n' + 1 + 1) 1 = ⟨1 + (a.count '\n' + 1), 1⟩
    rw [Nat.add_comm 1]
  have hzero : placeAt b n = Place.after {} (b.take n) := by
    have hadd := placeAt_add b 0 n
    rwa [Nat.zero_add] at hadd
  rw [placeAt_add, hstart, hbreak, Place.after_down, hzero]

/-! ### Stretches -/

variable {κ : Type} {rule : Rule κ} {newline : κ}

/-- The stretch when the text begins later. -/
def Stretch.shift (m : Nat) (t : Stretch κ) : Stretch κ := ⟨t.kind, m + t.start, t.length⟩

theorem Stretch.part_shift (m : Nat) (t : Stretch κ) (s : Text) : (t.shift m).part s = t.part (s.drop m) := by
  rw [part, part, List.drop_drop]
  rfl

theorem Stretch.part_append_of_le {t : Stretch κ} {a : Text} (h : t.stop ≤ a.length) (b : Text) :
    t.part (a ++ b) = t.part a := by
  unfold stop at h
  rw [part, part, List.drop_append_of_le_length (by omega), List.take_append_of_le_length]
  rw [List.length_drop]
  omega

theorem stretchesFrom_shift (rule : Rule κ) (m n : Nat) (s : Text) :
    stretchesFrom rule (m + n) s = (stretchesFrom rule n s).map (Stretch.shift m) := by
  induction s using kinds.induct rule generalizing n with
  | case1 => rw [stretchesFrom, stretchesFrom, List.map_nil]
  | case2 c r found ih =>
    rw [stretchesFrom_cons, stretchesFrom_cons, List.map_append, Nat.add_assoc, ih, List.map_map]
    rfl

/-- The stretches on both sides of a line break, and the break itself. -/
theorem LineLocal.stretchesFrom_append_break (h : LineLocal rule newline) (n : Nat) (a b : Text) :
    stretchesFrom rule n (a ++ '\n' :: b) =
      stretchesFrom rule n a ++ ⟨newline, n + a.length, 1⟩ :: stretchesFrom rule (n + a.length + 1) b := by
  induction a using kinds.induct rule generalizing n with
  | case1 =>
    have hbreak : rule.skippingGaps '\n' b = ⟨some newline, 0⟩ := by
      rw [Rule.skippingGaps, if_neg (by decide), h.at_break]
    rw [List.nil_append, stretchesFrom_cons, hbreak, stretchesFrom]
    rfl
  | case2 c r found ih =>
    have hmore : found.more ≤ r.length := h.skippingGaps_more_le c r
    have hlength : n + (found.more + 1) + (r.drop found.more).length = n + (c :: r).length := by
      rw [List.length_drop, List.length_cons]
      omega
    rw [List.cons_append, stretchesFrom_cons, stretchesFrom_cons, h.skippingGaps_append_break,
      List.drop_append_of_le_length hmore, ih, hlength, List.append_assoc]

/-! ### Tokens -/

/-- The tokens of two texts with a line break between them, when the first one has `n` lines. -/
def Tokens.join (newline : κ) (n : Nat) (a b : Tokens κ) : Tokens κ where
  tokens := a.tokens ++ ⟨newline, a.finish⟩ :: b.tokens.map (Token.move (Place.down n))
  finish := b.finish.down n

theorem LineLocal.tokenize_append_break (h : LineLocal rule newline) (a b : Text) :
    tokenize rule (a ++ '\n' :: b) =
      Tokens.join newline (Text.lines a).length (tokenize rule a) (tokenize rule b) := by
  have hfront : ∀ t ∈ stretchesFrom rule 0 a,
      (⟨t.kind, placeAt (a ++ '\n' :: b) t.start⟩ : Token κ) = ⟨t.kind, placeAt a t.start⟩ := by
    intro t ht
    have hinside := h.inside_of_mem_stretchesFrom ht
    rw [placeAt_append_of_le (by omega)]
  have hbreak : placeAt (a ++ '\n' :: b) (0 + a.length) = Place.after {} a := by
    rw [Nat.zero_add, placeAt_append_of_le (Nat.le_refl _), placeAt_length]
  have hbehind : (stretchesFrom rule (0 + a.length + 1) b).map
        (fun t => (⟨t.kind, placeAt (a ++ '\n' :: b) t.start⟩ : Token κ)) =
      (tokenize rule b).tokens.map (Token.move (Place.down (Text.lines a).length)) := by
    rw [Nat.zero_add, ← Nat.add_zero (a.length + 1), stretchesFrom_shift, tokens_tokenize, List.map_map, List.map_map]
    refine List.map_congr_left fun t _ => ?_
    show Token.mk t.kind (placeAt (a ++ '\n' :: b) (a.length + 1 + t.start)) = _
    rw [placeAt_append_break]
    rfl
  have hfinish : Place.after {} (a ++ '\n' :: b) = (Place.after {} b).down (Text.lines a).length := by
    rw [← placeAt_length, List.length_append, List.length_cons, ← Nat.add_assoc, Nat.add_right_comm,
      placeAt_append_break, placeAt_length]
  rw [Tokens.join, tokenize, Tokens.mk.injEq]
  refine ⟨?_, hfinish⟩
  show (tokenize rule (a ++ '\n' :: b)).tokens = _
  rw [tokens_tokenize, h.stretchesFrom_append_break, List.map_append, List.map_cons, List.map_congr_left hfront,
    ← tokens_tokenize, hbreak, hbehind]
  rfl

/-- In each dialect, the tokens of two texts with a line break between them are the tokens of the first, the line break
where the first one ends, and the tokens of the second, further down by the lines of the first. -/
theorem Dialect.tokenize_eq_join (a b : Text) :
    tokenize Er.rule (a ++ '\n' :: b) =
      Tokens.join .newline (Text.lines a).length (tokenize Er.rule a) (tokenize Er.rule b) ∧
    tokenize Flowchart.rule (a ++ '\n' :: b) =
      Tokens.join .newline (Text.lines a).length (tokenize Flowchart.rule a) (tokenize Flowchart.rule b) ∧
    tokenize Sequence.rule (a ++ '\n' :: b) =
      Tokens.join .newline (Text.lines a).length (tokenize Sequence.rule a) (tokenize Sequence.rule b) :=
  ⟨Er.rule_lineLocal.tokenize_append_break a b, Flowchart.rule_lineLocal.tokenize_append_break a b,
    Sequence.rule_lineLocal.tokenize_append_break a b⟩

end DiagramText

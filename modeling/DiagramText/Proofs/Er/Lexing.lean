import DiagramText.Er.Token
import DiagramText.Proofs.Lexing

/-!
# Lexing entity-relationship text

The rule of the dialect is local to lines (`rule_lineLocal`), and each thing that is written is cut back into its own
token: words, strings, braces, and the symbols of relations, which no word that is set off by a blank can begin.
-/

namespace DiagramText.Er

/-! ### The symbols of relations -/

private theorem ofSymbol?_isSome {s : Text} (h : (Cardinality.ofSymbol? s).isSome) :
    ∃ a b, s = [a, b] ∧ Text.isBlank a = false ∧ Text.isBlank b = false ∧
      (Text.isWordStart a = true → b = '|' ∨ b = '\x7b') := by
  unfold Cardinality.ofSymbol? at h
  rw [List.find?_isSome] at h
  obtain ⟨c, -, hc⟩ := h
  rcases of_decide_eq_true hc with rfl | rfl
  · cases c <;> exact ⟨_, _, rfl, by decide, by decide, by decide⟩
  · cases c <;> exact ⟨_, _, rfl, by decide, by decide, by decide⟩

/-- A symbol takes up six characters, and there is no blank among them. -/
theorem relationSymbol?_eq_some {s symbol : Text} (h : relationSymbol? s = some symbol) :
    symbol = s.take 6 ∧ symbol.length = 6 ∧ ∀ d ∈ symbol, Text.isBlank d = false := by
  unfold relationSymbol? at h
  dsimp only at h
  split at h
  · rename_i hs
    obtain ⟨a, b, hab, ha, hb, -⟩ := ofSymbol?_isSome hs.1
    obtain ⟨d, e, hde, hd, he, -⟩ := ofSymbol?_isSome hs.2.1
    obtain ⟨m, hm, hm'⟩ : ∃ m, ((s.take 6).drop 2).take 2 = [m, m] ∧ Text.isBlank m = false := by
      rcases hs.2.2 with h | h
      · exact ⟨'-', h, by decide⟩
      · exact ⟨'.', h, by decide⟩
    have hsplit : s.take 6 = [a, b] ++ ([m, m] ++ [d, e]) := by
      rw [← hab, ← hm, ← hde]
      conv => lhs; rw [← List.take_append_drop 2 (s.take 6), ← List.take_append_drop 2 ((s.take 6).drop 2)]
      rw [List.drop_drop]
    cases h
    refine ⟨rfl, by rw [hsplit]; rfl, ?_⟩
    rw [hsplit]
    simp [ha, hb, hd, he, hm']
  · cases h

private theorem relationSymbol?_congr {s t : Text} (h : s.take 6 = t.take 6) :
    relationSymbol? s = relationSymbol? t := by
  unfold relationSymbol?
  rw [h]

/-- A symbol does not reach over a blank. -/
theorem relationSymbol?_append_blank {d : Char} (hd : Text.isBlank d = true) (s u : Text) :
    relationSymbol? (s ++ d :: u) = relationSymbol? s := by
  by_cases hlen : 6 ≤ s.length
  · apply relationSymbol?_congr
    rw [List.take_append_of_le_length hlen]
  · have hshort : relationSymbol? s = none := by
      cases hs : relationSymbol? s with
      | none => rfl
      | some symbol =>
        obtain ⟨he, hl, -⟩ := relationSymbol?_eq_some hs
        rw [he, List.length_take] at hl
        omega
    have hblank : relationSymbol? (s ++ d :: u) = none := by
      cases hs : relationSymbol? (s ++ d :: u) with
      | none => rfl
      | some symbol =>
        obtain ⟨he, -, hn⟩ := relationSymbol?_eq_some hs
        have hmem : d ∈ symbol := by
          obtain ⟨k, hk⟩ : ∃ k, 6 - s.length = k + 1 := ⟨5 - s.length, by omega⟩
          rw [he, List.take_append, hk]
          simp
        rw [hn d hmem] at hd
        cases hd
    rw [hshort, hblank]

theorem relationSymbol?_firstLine (s : Text) : relationSymbol? (Text.firstLine s) = relationSymbol? s := by
  rcases Text.firstLine_cases s with h | ⟨r, h⟩
  · rw [← h]
  · conv => rhs; rw [h, relationSymbol?_append_blank (by decide)]

/-- A word that a blank or the end of the text sets off begins no symbol. -/
theorem relationSymbol?_word {c : Char} {w rest : Text} (hc : Text.isWordStart c = true)
    (hw : ∀ x ∈ w, Text.isWordChar x = true) (hr : ∀ x ∈ rest.head?, Text.isBlank x = true) :
    relationSymbol? (c :: (w ++ rest)) = none := by
  unfold relationSymbol?
  rw [if_neg]
  rintro ⟨h, -⟩
  obtain ⟨a, b, hab, -, -, hb⟩ := ofSymbol?_isSome h
  have hhead : (w ++ rest).head? = some b ∧ c = a := by
    cases hwr : w ++ rest with
    | nil => rw [hwr] at hab; simp at hab
    | cons x r => rw [hwr] at hab; simp at hab; simp [hab]
  obtain ⟨hhead, rfl⟩ := hhead
  cases w with
  | nil =>
    have := hr b (by simpa using hhead)
    rcases hb hc with rfl | rfl <;> exact absurd this (by decide)
  | cons x w =>
    have := hw b (by simp at hhead; simp [hhead])
    rcases hb hc with rfl | rfl <;> exact absurd this (by decide)

/-! ### The rule looks at one line only -/

theorem rule_lineLocal : LineLocal rule .newline where
  at_break _ := rfl
  line c r hc := by
    have hrel : relationSymbol? (c :: Text.firstLine r) = relationSymbol? (c :: r) := by
      rw [← Text.firstLine_cons hc, relationSymbol?_firstLine]
    unfold rule
    rw [hrel, Text.quoted_firstLine, Text.firstLine_firstLine, Text.takeWhile_firstLine (by decide)]
    simp only [Text.head?_firstLine (show '%' ≠ '\n' by decide)]
  more_le c r := by
    unfold rule
    split
    · exact Text.length_firstLine_le r
    split
    · simp
    split
    · simp
    split
    · simp
    split
    · exact Text.quoted_length_le _
    split
    · rename_i symbol h
      obtain ⟨he, -, -⟩ := relationSymbol?_eq_some h
      show symbol.length - 1 ≤ r.length
      rw [he, List.length_take, List.length_cons]
      omega
    split
    · simp
    split
    · simpa using (List.takeWhile_prefix _).length_le
    · simp

/-! ### What is written is cut back -/

theorem kinds_word {w rest : Text} (hw : Text.isWord w = true) (hr : ∀ x ∈ rest.head?, Text.isBlank x = true) :
    kinds rule (w ++ rest) = Kind.ofWord w :: kinds rule rest := by
  cases w with
  | nil => cases hw
  | cons c w =>
    simp only [Text.isWord, Bool.and_eq_true, List.all_eq_true] at hw
    have hrest : ∀ x ∈ rest.head?, Text.isWordChar x = false := fun x hx =>
      Text.isWordChar_eq_false_of_isBlank (hr x hx)
    have hne : ∀ d, Text.isWordStart d = false → c ≠ d := fun d hd e => by simp [e, hd] at hw
    apply kinds_found (Text.isGap_eq_false_of_isWordStart hw.1)
    unfold rule
    rw [if_neg (fun h => hne '%' (by decide) h.1), if_neg (hne '\n' (by decide)), if_neg (hne '\x7b' (by decide)),
      if_neg (hne ':' (by decide)), if_neg (hne '"' (by decide)), relationSymbol?_word hw.1 hw.2 hr]
    simp only
    rw [if_neg (hne '\x7d' (by decide)), if_pos hw.1, Text.takeWhile_append_exact hw.2 hrest]
    simp

end DiagramText.Er

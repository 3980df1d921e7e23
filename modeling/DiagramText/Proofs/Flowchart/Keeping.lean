import DiagramText.Proofs.Flowchart.Lines

/-!
# Labels that are read back

A label that holds a quote is written without quotes around it, so it may be read as another label, and even in another
shape.  `Shape.Keeps` says which labels are read back (`reread_eq_iff`).  A label that is not is lighter when it is read
again (`reread_lt_or_eq`).  Labels that come out of a text are clear of closing brackets (`clear_of_readShape`), so they
are read again as one token (`framed_of_clear`).
-/

namespace DiagramText.Flowchart

/-- The label is read back from the brackets of the shape: it holds no quote, or it has no outer blanks, is not all in
quotes, does not make the opening bracket a longer one, and is over where the first closing bracket comes. -/
def Shape.Keeps (sh : Shape) (label : Text) : Prop :=
  '"' ∉ label ∨
    (label = Text.strip label ∧ (∀ m, '"' ∉ m → label ≠ '"' :: (m ++ ['"'])) ∧
      (∀ a : Shape, sh.opener.length < a.opener.length → ¬ a.opener <+: sh.opener ++ (label ++ sh.closer)) ∧
        ∀ a : Shape, a.opener = sh.opener → ∀ j < label.length, ¬ a.closer <+: (label ++ sh.closer).drop j)

/-- How much a label weighs in a shape: a longer opening bracket counts for two characters less. -/
def Shape.weight (sh : Shape) (label : Text) : Nat := label.length + 2 * (3 - sh.opener.length)

/-- What a text can give to a shape as its label: a label with a quote has no outer blanks and holds no closing bracket
of the shape's opening bracket. -/
structure Shape.Clear (sh : Shape) (label : Text) : Prop where
  line : '\n' ∉ label
  clear : '"' ∈ label → label = Text.strip label ∧ ∀ a : Shape, a.opener = sh.opener → ¬ a.closer <:+: label

namespace Shape

variable {sh : Shape} {label : Text}

theorem opener_length_le (sh : Shape) : sh.opener.length ≤ 3 := by cases sh <;> decide

/-- A longer opening bracket has a closing bracket that the shorter one's is part of. -/
theorem infix_closer {a b : Shape} (h : a.opener <+: b.opener) (hlt : a.opener.length < b.opener.length) :
    a.closer <:+: b.closer := by
  have hall : ∀ a ∈ all, ∀ b ∈ all, a.opener <+: b.opener → a.opener.length < b.opener.length →
      a.closer <:+: b.closer := by
    decide
  exact hall a (mem_all a) b (mem_all b) h hlt

theorem wrap_of_quote (sh : Shape) (hq : '"' ∈ label) : sh.wrap label = sh.opener ++ (label ++ sh.closer) := by
  have hformat : formatLabel label = label := by
    rw [formatLabel, if_neg]
    simp [hq]
  rw [wrap, hformat, List.append_assoc]

/-- How a label with a quote is read again: behind an opening bracket that is as long or longer. -/
theorem exists_labelRead (sh : Shape) (hq : '"' ∈ label) (hb : '\n' ∉ label) :
    ∃ f e body n, readShape (sh.wrap label) = some f ∧ f.shape.opener = sh.opener ++ e ∧
      label ++ sh.closer = e ++ body ∧ f.length = sh.opener.length + e.length + n ∧
        LabelRead (candidates (sh.wrap label)) body f.shape f.label n ∧ (e = [] → sh ∈ candidates (sh.wrap label)) := by
  obtain ⟨f, hf⟩ := exists_readShape_wrap sh label
  obtain ⟨n, hread, hlen⟩ := labelRead_of_readShape hf
  obtain ⟨hstart, hlongest⟩ := mem_candidates.1 hread.mem
  rw [wrap_of_quote sh hq] at hstart hlongest
  have hle := hlongest sh (List.prefix_append _ _)
  obtain ⟨e, he⟩ := List.prefix_of_prefix_length_le (List.prefix_append sh.opener _) hstart hle
  obtain ⟨body, hbody⟩ : e <+: label ++ sh.closer := by
    rwa [← he, List.prefix_append_right_inj] at hstart
  refine ⟨f, e, body, n, hf, he.symm, hbody.symm, ?_, ?_, ?_⟩
  · rw [hlen, ← he, List.length_append]
  · rw [Text.firstLine_of_not_mem (break_not_mem_wrap sh hb), wrap_of_quote sh hq, ← he, ← hbody, ← List.append_assoc,
      List.drop_left, List.append_assoc, hbody] at hread
    rwa [wrap_of_quote sh hq]
  · rintro rfl
    rw [List.append_nil] at he
    rw [wrap_of_quote sh hq, mem_candidates]
    refine ⟨List.prefix_append _ _, ?_⟩
    intro a ha
    rw [he]
    exact hlongest a ha

theorem reread_of_readShape {f : Shaped} (h : readShape (sh.wrap label) = some f) :
    sh.reread label = (f.shape, f.label) := by
  rw [reread, h]

private theorem closer_at_end (sh : Shape) (label : Text) : sh.closer <+: (label ++ sh.closer).drop label.length :=
  ⟨[], by simp⟩

/-! ### Reading again makes labels lighter -/

/-- Behind a longer opening bracket a label is lighter. -/
private theorem weight_lt_of_longer {shape : Shape} {found e body : Text} (he : e ≠ [])
    (hopener : shape.opener = sh.opener ++ e) (hbody : label ++ sh.closer = e ++ body)
    (hfound : found.length ≤ body.length) : shape.weight found < sh.weight label := by
  have hopenerlen := congrArg List.length hopener
  have hbodylen := congrArg List.length hbody
  have hshape := opener_length_le shape
  have hcloser := length_closer sh
  have hpos := List.length_pos_iff.2 he
  simp only [List.length_append] at hopenerlen hbodylen
  unfold weight
  omega

/-- Reading a label again makes it lighter, or changes nothing. -/
theorem reread_lt_or_eq (sh : Shape) (hb : '\n' ∉ label) :
    (sh.reread label).1.weight (sh.reread label).2 < sh.weight label ∨ sh.reread label = (sh, label) := by
  by_cases hq : '"' ∈ label
  · obtain ⟨f, e, body, n, hf, hopener, hbody, -, hread, hcand⟩ := exists_labelRead sh hq hb
    rw [reread_of_readShape hf]
    by_cases he : e = []
    · subst he
      rw [List.append_nil] at hopener
      rw [List.nil_append] at hbody
      subst hbody
      obtain ⟨shape, found, length⟩ := f
      dsimp only at hopener hread ⊢
      have hweight : found.length < label.length → shape.weight found < sh.weight label := by
        intro hlt
        unfold weight
        rw [hopener]
        omega
      have hcloser : shape.closer.length = sh.closer.length := by rw [length_closer, length_closer, hopener]
      cases hread with
      | quoted hmem hbare heq =>
        have hlen := congrArg List.length heq
        simp only [List.length_cons, List.length_append] at hlen
        exact Or.inl (hweight (by omega))
      | @closed i hmem hunquoted hhere hfirst =>
        have hend := hhere.length_le
        have hstrip := Text.length_strip_le ((label ++ sh.closer).take i)
        have hpos := List.length_pos_iff.2 sh.closer_ne_nil
        rw [List.length_take] at hstrip
        rw [List.length_drop, List.length_append] at hend
        rcases Nat.lt_or_ge (Text.strip ((label ++ sh.closer).take i)).length label.length with hlt | hge
        · exact Or.inl (hweight hlt)
        · -- nothing was stripped, so the closing bracket is the one at the end
          right
          obtain rfl : i = label.length := by omega
          rw [List.take_left] at hge ⊢
          rw [List.drop_left] at hhere
          rw [eq_of_prefix_closer hopener hhere,
            Text.strip_eq_of_length (Nat.le_antisymm (Text.length_strip_le label) hge)]
      | unclosed hmem hunquoted hnever => exact absurd (closer_at_end sh label) (hnever sh (hcand rfl) label.length)
    · exact Or.inl (weight_lt_of_longer he hopener hbody hread.length_label_le)
  · exact Or.inr (reread_of_bare sh hq hb)

/-! ### Labels that are kept -/

/-- Quotes around a text that ends no sooner than the label are the first and the last character of the label. -/
private theorem eq_quoted_of_append {found r : Text} (h : label ++ sh.closer = '"' :: (found ++ '"' :: r))
    (hend : label.length ≤ found.length + 2) : label = '"' :: (found ++ ['"']) := by
  have hlength : label.length = found.length + 2 := by
    refine Nat.le_antisymm hend (Nat.le_of_not_lt fun hlt => ?_)
    have hget : (label ++ sh.closer)[found.length + 1]? = some '"' := by
      rw [h, List.getElem?_cons_succ, List.getElem?_append_right (Nat.le_refl _)]
      simp
    rw [List.getElem?_append_right (by omega)] at hget
    exact sh.quote_not_mem_closer (List.mem_of_getElem? hget)
  have htake := congrArg (List.take label.length) h
  rw [List.take_left, hlength] at htake
  rw [htake]
  simp [List.take_append, List.take_of_length_le]

/-- A label that is kept is read back, and nothing is left of its text. -/
theorem readShape_of_keeps (h : sh.Keeps label) (hb : '\n' ∉ label) :
    readShape (sh.wrap label) = some ⟨sh, label, (sh.wrap label).length⟩ := by
  by_cases hq : '"' ∈ label
  · obtain ⟨hstrip, hquoted, hlonger, hfirst⟩ := h.resolve_left fun hno => hno hq
    obtain ⟨f, e, body, n, hf, hopener, hbody, hlen, hread, hcand⟩ := exists_labelRead sh hq hb
    have he : e = [] := by
      cases e with
      | nil => rfl
      | cons c e =>
        refine absurd ?_ (hlonger f.shape ?_)
        · rw [hopener, hbody, ← List.append_assoc]
          exact List.prefix_append _ _
        · rw [hopener, List.length_append, List.length_cons]
          omega
    subst he
    rw [List.append_nil] at hopener
    rw [List.nil_append] at hbody
    subst hbody
    obtain ⟨shape, found, length⟩ := f
    dsimp only at hopener hread hlen
    cases hread with
    | @quoted _ t hmem hbare heq =>
      -- the closing bracket behind the quotes does not begin inside the label, so the quotes end the label
      have hhere : shape.closer <+: (label ++ sh.closer).drop (found.length + 2) := by
        rw [heq]
        refine ⟨t, ?_⟩
        simp [List.drop_append]
      have hend : label.length ≤ found.length + 2 :=
        Nat.le_of_not_lt fun hlt => hfirst shape hopener _ hlt hhere
      exact absurd (eq_quoted_of_append heq hend) (hquoted found hbare)
    | @closed i hmem hunquoted hhere hfirst' =>
      have hi : i = label.length := by
        rcases Nat.lt_trichotomy i label.length with hlt | heq | hgt
        · exact absurd hhere (hfirst shape hopener i hlt)
        · exact heq
        · exact absurd (closer_at_end sh label) (hfirst' sh (hcand rfl) _ hgt)
      subst hi
      rw [List.drop_left] at hhere
      have hshape := eq_of_prefix_closer hopener hhere
      subst hshape
      rw [hf, show length = _ from hlen, List.take_left, ← hstrip, wrap_of_quote shape hq]
      simp
    | unclosed hmem hunquoted hnever => exact absurd (closer_at_end sh label) (hnever sh (hcand rfl) _)
  · exact readShape_wrap sh hq hb

theorem keeps_of_reread (hb : '\n' ∉ label) (h : sh.reread label = (sh, label)) : sh.Keeps label := by
  by_cases hq : '"' ∈ label
  · obtain ⟨f, e, body, n, hf, hopener, hbody, -, hread, hcand⟩ := exists_labelRead sh hq hb
    rw [reread_of_readShape hf] at h
    obtain ⟨shape, found, length⟩ := f
    obtain ⟨hshape, hfound⟩ : shape = sh ∧ found = label := Prod.mk.inj h
    subst hshape
    dsimp only at hopener hread
    have he : e = [] := by simpa using hopener
    subst he
    rw [List.nil_append] at hbody
    subst hbody
    have hsibling : ∀ a : Shape, a.opener = shape.opener → a ∈ candidates (shape.wrap label) := by
      intro a ha
      rw [mem_candidates, ha]
      exact mem_candidates.1 (hcand rfl)
    cases hread with
    | quoted hmem hbare heq =>
      have hlen := congrArg List.length heq
      rw [hfound] at hlen
      simp only [List.length_cons, List.length_append] at hlen
      omega
    | @closed i hmem hunquoted hhere hfirst =>
      have hend := hhere.length_le
      have hstrip := Text.length_strip_le ((label ++ shape.closer).take i)
      rw [hfound, List.length_take] at hstrip
      rw [List.length_drop, List.length_append] at hend
      have hpos := List.length_pos_iff.2 shape.closer_ne_nil
      have hi : i = label.length := by omega
      subst hi
      rw [List.take_left] at hfound
      refine Or.inr ⟨hfound.symm, ?_, ?_, fun a ha j hj => hfirst a (hsibling a ha) j hj⟩
      · rintro m hm rfl
        exact hunquoted ⟨shape, hcand rfl, m, [], hm, by simp⟩
      · intro a hlt ha
        rw [← wrap_of_quote shape hq] at ha
        exact absurd ((mem_candidates.1 (hcand rfl)).2 a ha) (Nat.not_le.2 hlt)
    | unclosed hmem hunquoted hnever => exact absurd (closer_at_end shape label) (hnever shape (hcand rfl) _)
  · exact Or.inl hq

/-- The labels that are kept are those that are read back. -/
theorem reread_eq_iff (hb : '\n' ∉ label) : sh.reread label = (sh, label) ↔ sh.Keeps label := by
  refine ⟨keeps_of_reread hb, ?_⟩
  intro h
  rw [reread_of_readShape (readShape_of_keeps h hb)]

/-! ### Labels that come out of a text -/

/-- What is read of a shape is clear of its closing brackets. -/
theorem clear_of_readShape {s : Text} {f : Shaped} (h : readShape s = some f) : f.shape.Clear f.label := by
  obtain ⟨n, hread, -⟩ := labelRead_of_readShape h
  have hsibling : ∀ a : Shape, a.opener = f.shape.opener → a ∈ candidates s := by
    intro a ha
    rw [mem_candidates, ha]
    exact mem_candidates.1 hread.mem
  have hbreak : '\n' ∉ (Text.firstLine s).drop f.shape.opener.length := fun hm =>
    Text.break_not_mem_firstLine s (List.mem_of_mem_drop hm)
  generalize (Text.firstLine s).drop f.shape.opener.length = body at hread hbreak
  obtain ⟨shape, label, length⟩ := f
  dsimp only at hread hsibling ⊢
  cases hread with
  | quoted hmem hbare heq =>
    refine ⟨fun hm => hbreak ?_, fun hq => absurd hq hbare⟩
    rw [heq]
    exact List.mem_cons_of_mem _ (List.mem_append_left _ hm)
  | @closed i hmem hunquoted hhere hfirst =>
    refine ⟨fun hm => hbreak (List.mem_of_mem_take (Text.mem_of_mem_strip hm)), fun _ =>
      ⟨(Text.strip_strip _).symm, ?_⟩⟩
    intro a ha hinfix
    obtain ⟨u, v, huv⟩ := hinfix.trans (Text.infix_strip _)
    have hlen := congrArg List.length huv
    have hpos := List.length_pos_iff.2 a.closer_ne_nil
    simp only [List.length_append, List.length_take] at hlen
    refine hfirst a (hsibling a ha) u.length (by omega) ⟨v ++ body.drop i, ?_⟩
    have hbody : body = u ++ (a.closer ++ (v ++ body.drop i)) := by
      conv => lhs; rw [← List.take_append_drop i body, ← huv]
      simp only [List.append_assoc]
    conv => rhs; rw [hbody, List.drop_left]
  | unclosed hmem hunquoted hnever =>
    refine ⟨fun hm => hbreak (Text.mem_of_mem_strip hm), fun _ => ⟨(Text.strip_strip _).symm, ?_⟩⟩
    intro a ha hinfix
    obtain ⟨u, v, huv⟩ := hinfix.trans (Text.infix_strip _)
    refine hnever a (hsibling a ha) u.length ⟨v, ?_⟩
    rw [← huv, List.append_assoc, List.drop_left]

theorem clear_of_bare (sh : Shape) (hq : '"' ∉ label) (hb : '\n' ∉ label) : sh.Clear label :=
  ⟨hb, fun h => absurd h hq⟩

/-- A part that a text does not hold ends behind it. -/
private theorem length_lt_of_not_infix {part r u v : Text} (hpart : ¬ part <:+: label)
    (h : label ++ r = u ++ part ++ v) : label.length < (u ++ part).length := by
  apply Nat.lt_of_not_le
  intro hle
  have hstart : u ++ part <+: label := List.prefix_of_prefix_length_le ⟨v, h.symm⟩ (List.prefix_append label r) hle
  exact hpart ((List.infix_append' u part []).trans (by simpa using hstart.isInfix))

/-- What is read with a closing bracket that a text does not hold ends behind the text. -/
private theorem length_le_of_labelRead {shapes : List Shape} {shape : Shape} {found e body r : Text} {n : Nat}
    (hread : LabelRead shapes body shape found n) (hbody : label ++ r = e ++ body)
    (hcloser : ¬ shape.closer <:+: label) : label.length ≤ e.length + n := by
  cases hread with
  | @quoted _ t hmem hbare heq =>
    have hlt := length_lt_of_not_infix (r := r) (u := e ++ '"' :: (found ++ ['"'])) (v := t) hcloser (by
      simp [hbody, heq])
    simp only [List.length_append, List.length_cons, List.length_nil] at hlt
    omega
  | @closed i hmem hunquoted hhere hfirst =>
    obtain ⟨t, ht⟩ := hhere
    have hlt := length_lt_of_not_infix (u := e ++ body.take i) (v := t) hcloser (by
      rw [hbody, List.append_assoc, List.append_assoc, ht, List.take_append_drop])
    simp only [List.length_append, List.length_take] at hlt
    omega
  | unclosed hmem hunquoted hnever =>
    have hlen := congrArg List.length hbody
    simp only [List.length_append] at hlen
    omega

/-- A clear label is read again as one token: only brackets are left behind it. -/
theorem framed_of_clear (h : sh.Clear label) : Framed sh label where
  line := h.line
  alone f hf := by
    by_cases hq : '"' ∈ label
    · obtain ⟨hstrip, hclear⟩ := h.clear hq
      obtain ⟨f', e, body, n, hf', hopener, hbody, hlen, hread, hcand⟩ := exists_labelRead sh hq h.line
      rw [hf] at hf'
      cases hf'
      have hcloser : ¬ f.shape.closer <:+: label := by
        cases e with
        | nil => exact hclear f.shape (by rw [hopener, List.append_nil])
        | cons c e =>
          intro hinfix
          refine hclear sh rfl ((infix_closer ?_ ?_).trans hinfix)
          · rw [hopener]
            exact List.prefix_append _ _
          · rw [hopener, List.length_append, List.length_cons]
            omega
      have hend : label.length ≤ e.length + n := length_le_of_labelRead hread hbody hcloser
      have hdrop : (sh.wrap label).drop f.length = sh.closer.drop (e.length + n - label.length) := by
        rw [wrap_of_quote sh hq, hlen, Nat.add_assoc, ← List.drop_drop, List.drop_left, List.drop_append,
          List.drop_eq_nil_of_le hend, List.nil_append]
      rw [hdrop]
      exact kinds_brackets fun c hc => isBracket_of_mem_closer (List.mem_of_mem_drop hc)
    · exact (framed_of_bare sh hq h.line).alone f hf

/-! ### Titles -/

private theorem eq_rectangle {sh : Shape} (h : sh.opener = rectangle.opener) : sh = rectangle := by
  have hall : ∀ sh ∈ all, sh.opener = rectangle.opener → sh = rectangle := by decide
  exact hall sh (mem_all sh) h

private theorem rectangle_closer_not_mem_opener (sh : Shape) : ']' ∉ sh.opener := by cases sh <;> decide

private theorem eq_of_append_singleton {c d : Char} : ∀ {l : Text}, l ++ [d] = c :: l → d = c
  | [], h => (List.cons.inj h).1
  | x :: l, h => by
    obtain ⟨hx, hl⟩ := List.cons.inj h
    rw [← hx]
    exact eq_of_append_singleton hl

/-- A title is read back only if its shape is, since a longer opening bracket takes more of it away. -/
theorem keeps_of_title (hb : '\n' ∉ label) (h : (rectangle.reread label).2 = label) : rectangle.Keeps label := by
  by_cases hq : '"' ∈ label
  · obtain ⟨f, e, body, n, hf, hopener, hbody, -, hread, hcand⟩ := exists_labelRead rectangle hq hb
    have hreread := reread_of_readShape hf
    rw [hreread] at h
    have hopenerlen := congrArg List.length hopener
    have hbodylen := congrArg List.length hbody
    simp only [List.length_append] at hopenerlen hbodylen
    cases e with
    | nil =>
      rw [List.append_nil] at hopener
      refine keeps_of_reread hb ?_
      rw [hreread, eq_rectangle hopener, show f.label = label from h]
    | cons c e =>
      exfalso
      have hcloser := length_closer f.shape
      have hc : c ≠ ']' := by
        rintro rfl
        exact rectangle_closer_not_mem_opener f.shape (by simp [hopener])
      obtain ⟨shape, found, length⟩ := f
      dsimp only at h hopener hopenerlen hcloser hread
      subst h
      have hlen : rectangle.closer.length = rectangle.opener.length := rfl
      have hone : rectangle.opener.length = 1 := rfl
      rw [List.length_cons] at hopenerlen hbodylen
      rcases hread.length_add_le_or with hlt | hfound
      · have := hread.le_length
        omega
      · have hstrip := Text.length_strip_le body
        rw [← hfound] at hstrip
        have he : e = [] := List.length_eq_zero_iff.1 (by omega)
        subst he
        rw [List.length_nil] at hbodylen
        have hsame : Text.strip body = body := Text.strip_eq_of_length (by rw [← hfound]; omega)
        rw [hfound, hsame] at hbody
        exact hc (eq_of_append_singleton hbody).symm
  · exact Or.inl hq

end Shape

end DiagramText.Flowchart

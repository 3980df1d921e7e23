import DiagramText.Flowchart.Shape
import DiagramText.Proofs.Text.Parts

/-!
# Reading shapes

What the reader of shapes finds is one of three things (`LabelRead`): a label in quotes, a label up to the closing
bracket that comes first, or a label that is not closed.  A label without quotes is read back from the brackets that it
is written in, in quotes (`readShape_quoted`) or as it is (`readShape_bare`).
-/

namespace DiagramText.Flowchart

namespace Shape

/-! ### Brackets -/

theorem mem_all (sh : Shape) : sh ∈ all := by cases sh <;> decide

theorem opener_ne_nil (sh : Shape) : sh.opener ≠ [] := by cases sh <;> decide

theorem closer_ne_nil (sh : Shape) : sh.closer ≠ [] := by cases sh <;> decide

theorem length_closer (sh : Shape) : sh.closer.length = sh.opener.length := by cases sh <;> decide

theorem isBracket_of_mem_opener {sh : Shape} {c : Char} (h : c ∈ sh.opener) : isBracket c = true := by
  have hall : ∀ sh : Shape, ∀ c ∈ sh.opener, isBracket c = true := by
    intro sh
    cases sh <;> exact Text.forall_of_all (by decide)
  exact hall sh c h

theorem isBracket_of_mem_closer {sh : Shape} {c : Char} (h : c ∈ sh.closer) : isBracket c = true := by
  have hall : ∀ sh : Shape, ∀ c ∈ sh.closer, isBracket c = true := by
    intro sh
    cases sh <;> exact Text.forall_of_all (by decide)
  exact hall sh c h

theorem quote_not_mem_closer (sh : Shape) : '"' ∉ sh.closer := fun h =>
  absurd (isBracket_of_mem_closer h) (by decide)

theorem break_not_mem_opener (sh : Shape) : '\n' ∉ sh.opener := fun h =>
  absurd (isBracket_of_mem_opener h) (by decide)

theorem break_not_mem_closer (sh : Shape) : '\n' ∉ sh.closer := fun h =>
  absurd (isBracket_of_mem_closer h) (by decide)

/-- Two shapes never share both brackets. -/
theorem eq_of_brackets {a b : Shape} (ho : a.opener = b.opener) (hc : a.closer = b.closer) : a = b := by
  have h : ∀ a ∈ all, ∀ b ∈ all, a.opener = b.opener → a.closer = b.closer → a = b := by decide
  exact h a (mem_all a) b (mem_all b) ho hc

/-- Of the shapes with one opening bracket only one can be closed at a place. -/
theorem eq_of_closed {a b : Shape} {t : Text} (ho : a.opener = b.opener) (ha : a.closer <+: t) (hb : b.closer <+: t) :
    a = b := by
  have hlen : a.closer.length = b.closer.length := by rw [length_closer, length_closer, ho]
  exact eq_of_brackets ho ((List.prefix_of_prefix_length_le ha hb (Nat.le_of_eq hlen)).eq_of_length hlen)

theorem eq_of_prefix_closer {a b : Shape} (ho : a.opener = b.opener) (hc : a.closer <+: b.closer) : a = b :=
  eq_of_closed ho hc List.prefix_rfl

/-- A closing bracket behind its opening bracket does not make a longer opening bracket, whatever follows. -/
theorem not_prefix_opener (a : Shape) {b : Shape} (h : a.opener.length < b.opener.length) (r : Text) :
    ¬ b.opener <+: a.opener ++ (a.closer ++ r) := by
  have hall : ∀ a ∈ all, ∀ b ∈ all, a.opener.length < b.opener.length →
      ¬ a.opener ++ a.closer.take 1 <+: b.opener := by
    decide
  intro hb
  -- the first character of the closing bracket is still inside the longer one
  have hfirst : a.opener ++ a.closer.take 1 <+: a.opener ++ (a.closer ++ r) :=
    (List.prefix_append_right_inj _).2 ((List.take_prefix 1 a.closer).trans (List.prefix_append _ _))
  refine hall a (mem_all a) b (mem_all b) h (List.prefix_of_prefix_length_le hfirst hb ?_)
  rw [List.length_append, List.length_take]
  omega

/-! ### Candidates -/

private theorem foldl_max_le {m : Nat} {l : List Nat} {a : Nat} : l.foldl max a ≤ m ↔ a ≤ m ∧ ∀ n ∈ l, n ≤ m := by
  induction l generalizing a with
  | nil => simp
  | cons n l ih =>
    rw [List.foldl_cons, ih]
    rw [Nat.max_le, and_assoc, List.forall_mem_cons]

private theorem foldl_max_mem (l : List Nat) : l.foldl max 0 = 0 ∨ l.foldl max 0 ∈ l := by
  have hgen : ∀ a, l.foldl max a = a ∨ l.foldl max a ∈ l := by
    induction l with
    | nil => exact fun a => Or.inl rfl
    | cons n l ih =>
      intro a
      rw [List.foldl_cons]
      rcases ih (max a n) with h | h
      · rw [h]
        rcases Nat.le_total a n with hle | hle
        · right
          rw [Nat.max_eq_right hle]
          exact List.mem_cons_self
        · left
          exact Nat.max_eq_left hle
      · exact Or.inr (List.mem_cons_of_mem n h)
  exact hgen 0

/-- The candidates are the shapes whose opening bracket begins the text, as long as no longer one does. -/
theorem mem_candidates {s : Text} {sh : Shape} :
    sh ∈ candidates s ↔ sh.opener <+: s ∧ ∀ a : Shape, a.opener <+: s → a.opener.length ≤ sh.opener.length := by
  unfold candidates
  dsimp only
  generalize hopened : all.filter (fun sh => sh.opener.isPrefixOf s) = opened
  have hmem : ∀ a, a ∈ opened ↔ a.opener <+: s := by
    intro a
    rw [← hopened, List.mem_filter, List.isPrefixOf_iff_prefix]
    exact and_iff_right (mem_all a)
  rw [List.mem_filter, hmem, decide_eq_true_eq]
  constructor
  · rintro ⟨hs, hlen⟩
    refine ⟨hs, ?_⟩
    intro a ha
    have hle := (foldl_max_le.1 (Nat.le_of_eq hlen.symm)).2
    exact hle _ (List.mem_map_of_mem ((hmem a).2 ha))
  · rintro ⟨hs, hlongest⟩
    refine ⟨hs, Nat.le_antisymm ?_ ?_⟩
    · have hle := (foldl_max_le (a := 0).1 (Nat.le_refl ((opened.map (·.opener.length)).foldl max 0))).2
      exact hle _ (List.mem_map_of_mem ((hmem sh).2 hs))
    · refine foldl_max_le.2 ⟨Nat.zero_le _, ?_⟩
      intro n hn
      obtain ⟨a, ha, rfl⟩ := List.mem_map.1 hn
      exact hlongest a ((hmem a).1 ha)

/-- Where one opening bracket begins a text, a longest one does. -/
theorem exists_mem_candidates {s : Text} {sh : Shape} (h : sh.opener <+: s) : ∃ a, a ∈ candidates s := by
  have hopened : sh ∈ all.filter fun sh => sh.opener.isPrefixOf s :=
    List.mem_filter.2 ⟨mem_all sh, List.isPrefixOf_iff_prefix.2 h⟩
  unfold candidates
  dsimp only
  generalize all.filter (fun sh => sh.opener.isPrefixOf s) = opened at hopened ⊢
  have hle := (foldl_max_le (a := 0).1 (Nat.le_refl ((opened.map (·.opener.length)).foldl max 0))).2 _
    (List.mem_map_of_mem hopened)
  have hpos := List.length_pos_iff.2 sh.opener_ne_nil
  rcases foldl_max_mem (opened.map (·.opener.length)) with hzero | hmem
  · omega
  · obtain ⟨a, ha, hlen⟩ := List.mem_map.1 hmem
    exact ⟨a, List.mem_filter.2 ⟨ha, by simpa using hlen⟩⟩

theorem opener_eq_of_mem_candidates {s : Text} {a b : Shape} (ha : a ∈ candidates s) (hb : b ∈ candidates s) :
    a.opener = b.opener := by
  obtain ⟨ha, hamax⟩ := mem_candidates.1 ha
  obtain ⟨hb, hbmax⟩ := mem_candidates.1 hb
  have hlen := Nat.le_antisymm (hbmax a ha) (hamax b hb)
  exact (List.prefix_of_prefix_length_le ha hb (Nat.le_of_eq hlen)).eq_of_length hlen

theorem candidates_firstLine (s : Text) : candidates (Text.firstLine s) = candidates s := by
  have h : ∀ sh : Shape, sh.opener.isPrefixOf (Text.firstLine s) = sh.opener.isPrefixOf s := fun sh =>
    Text.isPrefixOf_firstLine (break_not_mem_opener sh) s
  unfold candidates
  simp only [h]

end Shape

/-! ### The three ways to read a label -/

/-- The text holds a label in quotes, with the closing bracket of one of the shapes right behind it. -/
def IsQuoted (shapes : List Shape) (body : Text) : Prop :=
  ∃ sh ∈ shapes, ∃ label t, '"' ∉ label ∧ body = '"' :: (label ++ '"' :: (sh.closer ++ t))

/-- How a label and its shape are read behind the opening bracket of the shapes, and how many characters that takes
up. -/
inductive LabelRead (shapes : List Shape) (body : Text) : Shape → Text → Nat → Prop
  /-- The label stands in quotes. -/
  | quoted {sh : Shape} {label t : Text} (mem : sh ∈ shapes) (bare : '"' ∉ label)
      (eq : body = '"' :: (label ++ '"' :: (sh.closer ++ t))) :
      LabelRead shapes body sh label (label.length + 2 + sh.closer.length)
  /-- The closing bracket of the shape comes first. -/
  | closed {sh : Shape} {i : Nat} (mem : sh ∈ shapes) (unquoted : ¬ IsQuoted shapes body)
      (here : sh.closer <+: body.drop i) (first : ∀ a ∈ shapes, ∀ j < i, ¬ a.closer <+: body.drop j) :
      LabelRead shapes body sh (Text.strip (body.take i)) (i + sh.closer.length)
  /-- No closing bracket comes. -/
  | unclosed {sh : Shape} (mem : sh ∈ shapes) (unquoted : ¬ IsQuoted shapes body)
      (never : ∀ a ∈ shapes, ∀ j, ¬ a.closer <+: body.drop j) :
      LabelRead shapes body sh (Text.strip body) body.length

theorem takeWhile_of_quoted {label r : Text} (h : '"' ∉ label) :
    (label ++ '"' :: r).takeWhile (· != '"') = label := by
  apply Text.takeWhile_append_exact
  · intro c hc
    simpa using fun e : c = '"' => h (e ▸ hc)
  · simp

/-- Only one label stands in quotes. -/
private theorem quoted_inj {a b r t : Text} (ha : '"' ∉ a) (hb : '"' ∉ b) (h : a ++ '"' :: r = b ++ '"' :: t) :
    a = b ∧ r = t := by
  have hab := congrArg (List.takeWhile (· != '"')) h
  rw [takeWhile_of_quoted ha, takeWhile_of_quoted hb] at hab
  subst hab
  simpa using h

private theorem readQuotedLabel_cases (shapes : List Shape) (body : Text) :
    (readQuotedLabel shapes body = none ∧ ¬ IsQuoted shapes body) ∨
      ∃ sh ∈ shapes, ∃ label t, '"' ∉ label ∧ body = '"' :: (label ++ '"' :: (sh.closer ++ t)) ∧
        readQuotedLabel shapes body =
          some ⟨sh, label, sh.opener.length + label.length + 2 + sh.closer.length⟩ := by
  cases hq : readQuotedLabel shapes body with
  | none =>
    refine Or.inl ⟨rfl, ?_⟩
    rintro ⟨sh, hsh, label, t, hlabel, rfl⟩
    unfold readQuotedLabel at hq
    simp only [List.head?_cons, if_true, List.drop_succ_cons, List.drop_zero, takeWhile_of_quoted hlabel,
      Nat.add_comm 1, List.drop_left, Option.map_eq_none_iff, List.find?_eq_none] at hq
    exact hq sh hsh (by simp [List.isPrefixOf_iff_prefix])
  | some f =>
    right
    unfold readQuotedLabel at hq
    split at hq
    case isFalse => cases hq
    rename_i hopen
    obtain ⟨r, rfl⟩ := List.head?_eq_some_iff.1 hopen
    simp only [List.drop_succ_cons, List.drop_zero, Nat.add_comm 1] at hq
    have hbare : ∀ c ∈ r.takeWhile (· != '"'), (c != '"') = true := List.all_eq_true.1 List.all_takeWhile
    obtain ⟨u, hu⟩ : r.takeWhile (· != '"') <+: r := List.takeWhile_prefix _
    generalize r.takeWhile (· != '"') = label at hq hbare hu
    subst hu
    rw [List.drop_left] at hq
    split at hq
    case isFalse => cases hq
    rename_i hclose
    obtain ⟨u, rfl⟩ := List.head?_eq_some_iff.1 hclose
    obtain ⟨sh, hsh, rfl⟩ := Option.map_eq_some_iff.1 hq
    have hcloser : sh.closer.isPrefixOf u = true := by simpa using List.find?_some hsh
    obtain ⟨t, rfl⟩ := List.isPrefixOf_iff_prefix.1 hcloser
    exact ⟨sh, List.mem_of_find?_eq_some hsh, label, t, fun h => by simpa using hbare _ h, rfl, rfl⟩

/-! ### The first closing bracket -/

/-- The better of the best shape so far and the next one. -/
private def sooner (body : Text) (best : Option (Shape × Nat)) (sh : Shape) : Option (Shape × Nat) :=
  match best, Text.find? sh.closer body with
  | some (_, i), some j => if j < i then some (sh, j) else best
  | none, some j => some (sh, j)
  | _, none => best

/-- Of some shapes, the one whose closing bracket occurs first, with its place, if any of them has one that occurs. -/
private def IsSoonest (shapes : List Shape) (body : Text) : Option (Shape × Nat) → Prop
  | none => ∀ a ∈ shapes, Text.find? a.closer body = none
  | some (sh, i) => sh ∈ shapes ∧ Text.find? sh.closer body = some i ∧
      ∀ a ∈ shapes, ∀ j, Text.find? a.closer body = some j → i ≤ j

private theorem isSoonest_sooner {seen : List Shape} {body : Text} {best : Option (Shape × Nat)}
    (h : IsSoonest seen body best) (sh : Shape) : IsSoonest (seen ++ [sh]) body (sooner body best sh) := by
  have hself : sh ∈ seen ++ [sh] := List.mem_append_right seen (List.mem_singleton_self sh)
  unfold sooner
  cases hfound : Text.find? sh.closer body with
  | none =>
    cases best with
    | none => exact List.forall_mem_append.2 ⟨h, by simpa using hfound⟩
    | some b =>
      obtain ⟨hmem, hat, hall⟩ := h
      exact ⟨List.mem_append_left _ hmem, hat, List.forall_mem_append.2 ⟨hall, by simp [hfound]⟩⟩
  | some j =>
    cases best with
    | none =>
      refine ⟨hself, hfound, List.forall_mem_append.2 ⟨fun a ha k hk => ?_, by simp [hfound]⟩⟩
      rw [h a ha] at hk
      cases hk
    | some b =>
      obtain ⟨hmem, hat, hall⟩ := h
      dsimp only
      split
      · rename_i hlt
        refine ⟨hself, hfound, List.forall_mem_append.2 ⟨fun a ha k hk => ?_, by simp [hfound]⟩⟩
        exact Nat.le_trans (Nat.le_of_lt hlt) (hall a ha k hk)
      · rename_i hle
        refine ⟨List.mem_append_left _ hmem, hat, List.forall_mem_append.2 ⟨hall, ?_⟩⟩
        simpa [hfound] using hle

private theorem isSoonest_foldl {seen : List Shape} {body : Text} {best : Option (Shape × Nat)}
    (h : IsSoonest seen body best) (shapes : List Shape) :
    IsSoonest (seen ++ shapes) body (shapes.foldl (sooner body) best) := by
  induction shapes generalizing seen best with
  | nil => rwa [List.append_nil]
  | cons sh shapes ih =>
    have hrest := ih (isSoonest_sooner h sh)
    rwa [List.append_assoc, List.singleton_append] at hrest

private theorem isSoonest_firstClosed (shapes : List Shape) (body : Text) :
    IsSoonest shapes body (firstClosed shapes body) := by
  have hstart : IsSoonest [] body none := by simp [IsSoonest]
  exact isSoonest_foldl hstart shapes

/-- The closing bracket that is found first is one of the shapes, and none of them has one before it. -/
theorem firstClosed_cases (shapes : List Shape) (body : Text) :
    (firstClosed shapes body = none ∧ ∀ a ∈ shapes, ∀ j, ¬ a.closer <+: body.drop j) ∨
      ∃ sh i, firstClosed shapes body = some (sh, i) ∧ sh ∈ shapes ∧ sh.closer <+: body.drop i ∧
        ∀ a ∈ shapes, ∀ j < i, ¬ a.closer <+: body.drop j := by
  have hsoonest := isSoonest_firstClosed shapes body
  cases h : firstClosed shapes body with
  | none =>
    rw [h] at hsoonest
    exact Or.inl ⟨rfl, fun a ha => (Text.find?_eq_none_iff a.closer_ne_nil).1 (hsoonest a ha)⟩
  | some r =>
    rw [h] at hsoonest
    obtain ⟨hmem, hat, hall⟩ := hsoonest
    refine Or.inr ⟨r.1, r.2, rfl, hmem, ((Text.find?_eq_some_iff r.1.closer_ne_nil).1 hat).1, ?_⟩
    intro a ha j hj hhere
    obtain ⟨k, hk, hkj⟩ := Text.exists_find?_le a.closer_ne_nil hhere
    have := hall a ha k hk
    omega

/-! ### Reading a shape -/

theorem readShape_firstLine (s : Text) : readShape (Text.firstLine s) = readShape s := by
  unfold readShape
  rw [Shape.candidates_firstLine, Text.firstLine_firstLine]

/-- What is read of a shape is read behind its opening bracket in one of the three ways. -/
theorem labelRead_of_readShape {s : Text} {f : Shaped} (h : readShape s = some f) :
    ∃ n, LabelRead (Shape.candidates s) ((Text.firstLine s).drop f.shape.opener.length) f.shape f.label n ∧
      f.length = f.shape.opener.length + n := by
  unfold readShape at h
  split at h
  · cases h
  · rename_i sh shapes hshapes
    rw [hshapes]
    have hopener : ∀ a ∈ sh :: shapes, a.opener = sh.opener := fun a ha =>
      Shape.opener_eq_of_mem_candidates (hshapes ▸ ha) (hshapes ▸ List.mem_cons_self)
    dsimp only at h
    generalize hbody : (Text.firstLine s).drop sh.opener.length = body at h
    rcases readQuotedLabel_cases (sh :: shapes) body with ⟨hquoted, hunquoted⟩ | ⟨a, ha, label, t, hl, he, hquoted⟩
    · rcases firstClosed_cases (sh :: shapes) body with ⟨hclosed, hnever⟩ | ⟨a, i, hclosed, ha, hhere, hfirst⟩
      · simp only [hquoted, readClosedLabel, hclosed] at h
        cases h
        refine ⟨body.length, ?_, rfl⟩
        show LabelRead (sh :: shapes) (List.drop sh.opener.length _) sh (Text.strip body) _
        rw [hbody]
        exact LabelRead.unclosed List.mem_cons_self hunquoted hnever
      · simp only [hquoted, readClosedLabel, hclosed] at h
        cases h
        refine ⟨i + a.closer.length, ?_, Nat.add_assoc _ _ _⟩
        show LabelRead (sh :: shapes) (List.drop a.opener.length _) a (Text.strip (body.take i)) _
        rw [hopener a ha, hbody]
        exact LabelRead.closed ha hunquoted hhere hfirst
    · simp only [hquoted] at h
      cases h
      refine ⟨label.length + 2 + a.closer.length, ?_, by simp only [Nat.add_assoc]⟩
      show LabelRead (sh :: shapes) (List.drop a.opener.length _) a label _
      rw [hopener a ha, hbody]
      exact LabelRead.quoted ha hl he

theorem LabelRead.mem {shapes : List Shape} {body label : Text} {sh : Shape} {n : Nat}
    (h : LabelRead shapes body sh label n) : sh ∈ shapes := by
  cases h <;> assumption

theorem LabelRead.le_length {shapes : List Shape} {body label : Text} {sh : Shape} {n : Nat}
    (h : LabelRead shapes body sh label n) : n ≤ body.length := by
  cases h with
  | quoted hmem hbare he =>
    rw [he]
    simp only [List.length_cons, List.length_append]
    omega
  | closed hmem hunquoted hhere hfirst =>
    have hlen := hhere.length_le
    have hpos := List.length_pos_iff.2 sh.closer_ne_nil
    rw [List.length_drop] at hlen
    omega
  | unclosed hmem hunquoted hnever => exact Nat.le_refl _

/-- What is taken up holds the label and the closing bracket, if one comes. -/
theorem LabelRead.length_add_le_or {shapes : List Shape} {body label : Text} {sh : Shape} {n : Nat}
    (h : LabelRead shapes body sh label n) :
    label.length + sh.closer.length ≤ n ∨ label = Text.strip body := by
  cases h with
  | quoted mem bare eq => exact Or.inl (by omega)
  | @closed i mem unquoted here first =>
    left
    have hstrip := Text.length_strip_le (body.take i)
    rw [List.length_take] at hstrip
    omega
  | unclosed mem unquoted never => exact Or.inr rfl

theorem LabelRead.length_label_le {shapes : List Shape} {body label : Text} {sh : Shape} {n : Nat}
    (h : LabelRead shapes body sh label n) : label.length ≤ body.length := by
  rcases h.length_add_le_or with hlt | rfl
  · have := h.le_length
    omega
  · exact Text.length_strip_le body

theorem readShape_length {s : Text} {f : Shaped} (h : readShape s = some f) :
    f.shape.opener.length ≤ f.length ∧ f.length ≤ (Text.firstLine s).length := by
  obtain ⟨n, hread, hlen⟩ := labelRead_of_readShape h
  have hn := hread.le_length
  have hopener := (Shape.mem_candidates.1 hread.mem).1.length_le
  have hfirst : f.shape.opener.length ≤ (Text.firstLine s).length := by
    have hmem := hread.mem
    rw [← Shape.candidates_firstLine, Shape.mem_candidates] at hmem
    exact hmem.1.length_le
  rw [List.length_drop] at hn
  omega

theorem exists_readShape {s : Text} {sh : Shape} (h : sh ∈ Shape.candidates s) : ∃ f, readShape s = some f := by
  unfold readShape
  split
  · rename_i hnil
    rw [hnil] at h
    cases h
  · rename_i a shapes _
    rcases readQuotedLabel_cases (a :: shapes) ((Text.firstLine s).drop a.opener.length) with ⟨hquoted, -⟩ |
      ⟨b, -, label, t, -, -, hquoted⟩
    · cases hclosed : readClosedLabel (a :: shapes) ((Text.firstLine s).drop a.opener.length) with
      | none => exact ⟨_, by simp only [hquoted, hclosed]; rfl⟩
      | some f => exact ⟨f, by simp only [hquoted, hclosed]; rfl⟩
    · exact ⟨_, by simp only [hquoted]; rfl⟩

/-! ### A shape as it is written -/

/-- A label between the brackets of its shape. -/
def Shape.wrap (sh : Shape) (label : Text) : Text := sh.opener ++ formatLabel label ++ sh.closer

/-- What begins with an opening bracket is read as a shape. -/
theorem exists_readShape_wrap (sh : Shape) (label : Text) : ∃ f, readShape (sh.wrap label) = some f := by
  have hopener : sh.opener <+: sh.wrap label := by
    rw [Shape.wrap, List.append_assoc]
    exact List.prefix_append _ _
  obtain ⟨a, ha⟩ := Shape.exists_mem_candidates hopener
  exact exists_readShape ha

/-- The shape is a candidate for its own text if the label does not make its opening bracket a longer one. -/
private theorem mem_candidates_append {sh : Shape} {t : Text}
    (h : ∀ a : Shape, sh.opener.length < a.opener.length → ¬ a.opener <+: sh.opener ++ t) :
    sh ∈ Shape.candidates (sh.opener ++ t) := by
  rw [Shape.mem_candidates]
  refine ⟨List.prefix_append _ _, ?_⟩
  intro a ha
  exact Nat.le_of_not_lt fun hlt => h a hlt ha

/-- What is longer than the opening bracket goes on with what follows it. -/
private theorem head?_of_longer {sh a : Shape} {t : Text} (hlt : sh.opener.length < a.opener.length)
    (h : a.opener <+: sh.opener ++ t) : ∃ c ∈ t.head?, isBracket c = true := by
  obtain ⟨u, hu⟩ := List.prefix_of_prefix_length_le (List.prefix_append sh.opener t) h (Nat.le_of_lt hlt)
  cases u with
  | nil =>
    rw [List.append_nil] at hu
    rw [hu] at hlt
    exact absurd hlt (Nat.lt_irrefl _)
  | cons c u =>
    rw [← hu, List.prefix_append_right_inj] at h
    obtain ⟨v, hv⟩ := h
    have hmem : c ∈ a.opener := by
      rw [← hu]
      simp
    exact ⟨c, by rw [← hv]; rfl, Shape.isBracket_of_mem_opener hmem⟩

theorem break_not_mem_wrap (sh : Shape) {label : Text} (hb : '\n' ∉ label) : '\n' ∉ sh.wrap label := by
  have hformat : '\n' ∉ formatLabel label := by
    unfold formatLabel
    split
    · simp [Text.quote, hb]
    · exact hb
  simp [Shape.wrap, hformat, sh.break_not_mem_opener, sh.break_not_mem_closer]

/-- The written shape, seen from behind its opening bracket. -/
private theorem labelRead_wrap {sh : Shape} {label r : Text} (hb : '\n' ∉ label)
    (hcand : sh ∈ Shape.candidates (sh.wrap label ++ r)) : ∃ f n, readShape (sh.wrap label ++ r) = some f ∧
      LabelRead (Shape.candidates (sh.wrap label ++ r)) (formatLabel label ++ (sh.closer ++ Text.firstLine r))
        f.shape f.label n ∧
      f.shape.opener = sh.opener ∧ f.length = sh.opener.length + n := by
  obtain ⟨f, hf⟩ := exists_readShape hcand
  obtain ⟨n, hread, hlen⟩ := labelRead_of_readShape hf
  have hopener := Shape.opener_eq_of_mem_candidates hread.mem hcand
  have hbody : (Text.firstLine (sh.wrap label ++ r)).drop f.shape.opener.length =
      formatLabel label ++ (sh.closer ++ Text.firstLine r) := by
    rw [Text.firstLine_append (break_not_mem_wrap sh hb), hopener, Shape.wrap, List.append_assoc, List.append_assoc,
      List.drop_left]
  rw [hbody] at hread
  exact ⟨f, n, hf, hread, hopener, by rw [hlen, hopener]⟩

/-- A label in quotes is read back. -/
theorem readShape_quoted (sh : Shape) {label : Text} (hq : '"' ∉ label) (hb : '\n' ∉ label)
    (hformat : formatLabel label = Text.quote label) (r : Text) :
    readShape (sh.wrap label ++ r) = some ⟨sh, label, (sh.wrap label).length⟩ := by
  have hcand : sh ∈ Shape.candidates (sh.wrap label ++ r) := by
    rw [Shape.wrap, List.append_assoc, List.append_assoc, hformat]
    apply mem_candidates_append
    intro a hlt ha
    obtain ⟨c, hc, hbracket⟩ := head?_of_longer hlt ha
    rw [Text.quote] at hc
    cases hc
    exact absurd hbracket (by decide)
  obtain ⟨f, n, hf, hread, hopener, hlen⟩ := labelRead_wrap hb hcand
  have hbody : formatLabel label ++ (sh.closer ++ Text.firstLine r) =
      '"' :: (label ++ '"' :: (sh.closer ++ Text.firstLine r)) := by
    rw [hformat, Text.quote]
    simp
  have hquoted : IsQuoted (Shape.candidates (sh.wrap label ++ r))
      (formatLabel label ++ (sh.closer ++ Text.firstLine r)) :=
    ⟨sh, hcand, label, Text.firstLine r, hq, hbody⟩
  obtain ⟨shape, found, length⟩ := f
  cases hread with
  | quoted hmem hbare he =>
    rw [hbody, List.cons_inj_right] at he
    obtain ⟨rfl, ht⟩ := quoted_inj hq hbare he
    have hsh : shape = sh := Shape.eq_of_closed hopener ⟨_, ht.symm⟩ (List.prefix_append _ _)
    subst hsh
    rw [hf, show length = _ from hlen, Shape.wrap, hformat]
    simp [Text.quote]
    omega
  | closed hmem hunquoted hhere hfirst => exact absurd hquoted hunquoted
  | unclosed hmem hunquoted hnever => exact absurd hquoted hunquoted

/-- No closing bracket begins inside a text without brackets. -/
private theorem not_prefix_of_clear {label : Text} (hbracket : ∀ c ∈ label, isBracket c = false) (a : Shape) (r : Text)
    {j : Nat} (hj : j < label.length) : ¬ a.closer <+: (label ++ r).drop j := by
  intro hhere
  obtain ⟨c, u, hcu⟩ := List.exists_cons_of_ne_nil a.closer_ne_nil
  rw [hcu, List.drop_append_of_le_length (Nat.le_of_lt hj), List.drop_eq_getElem_cons hj, List.cons_append,
    List.cons_prefix_cons] at hhere
  have hmem : c ∈ a.closer := by
    rw [hcu]
    exact List.mem_cons_self
  have hc := Shape.isBracket_of_mem_closer hmem
  rw [hhere.1, hbracket _ (List.getElem_mem hj)] at hc
  cases hc

/-- Without a quote in the label, no string begins where the label stands. -/
private theorem head?_append_closer {label : Text} (hq : '"' ∉ label) (sh : Shape) (r : Text) :
    (label ++ (sh.closer ++ r)).head? ≠ some '"' := by
  obtain ⟨c, u, hcu⟩ := List.exists_cons_of_ne_nil (List.append_ne_nil_of_right_ne_nil label sh.closer_ne_nil)
  have hmem : c ∈ label ++ sh.closer := by
    rw [hcu]
    exact List.mem_cons_self
  rw [← List.append_assoc, hcu, List.cons_append, List.head?_cons, Ne, Option.some.injEq]
  rintro rfl
  exact (List.mem_append.1 hmem).elim hq sh.quote_not_mem_closer

/-- A label without brackets and outer blanks is read back. -/
theorem readShape_bare (sh : Shape) {label : Text} (hq : '"' ∉ label) (hb : '\n' ∉ label)
    (hstrip : label = Text.strip label) (hbracket : ∀ c ∈ label, isBracket c = false)
    (hformat : formatLabel label = label) (r : Text) :
    readShape (sh.wrap label ++ r) = some ⟨sh, label, (sh.wrap label).length⟩ := by
  have hcand : sh ∈ Shape.candidates (sh.wrap label ++ r) := by
    rw [Shape.wrap, List.append_assoc, List.append_assoc, hformat]
    apply mem_candidates_append
    intro a hlt ha
    cases label with
    | nil => exact sh.not_prefix_opener hlt r ha
    | cons d label =>
      obtain ⟨c, hc, hc'⟩ := head?_of_longer hlt ha
      cases hc
      rw [hbracket d List.mem_cons_self] at hc'
      cases hc'
  obtain ⟨f, n, hf, hread, hopener, hlen⟩ := labelRead_wrap hb hcand
  rw [hformat] at hread
  generalize Text.firstLine r = r' at hread
  have hend : sh.closer <+: (label ++ (sh.closer ++ r')).drop label.length := by
    rw [List.drop_left]
    exact List.prefix_append _ _
  obtain ⟨shape, found, length⟩ := f
  dsimp only at hread hopener hlen
  cases hread with
  | quoted hmem hbare he => exact absurd (congrArg List.head? he) (head?_append_closer hq sh r')
  | @closed i hmem hunquoted hhere hfirst =>
    have hi : i = label.length := by
      rcases Nat.lt_trichotomy i label.length with h | h | h
      · exact absurd hhere (not_prefix_of_clear hbracket shape _ h)
      · exact h
      · exact absurd hend (hfirst sh hcand _ h)
    subst hi
    rw [List.drop_left] at hhere hend
    have hsh : shape = sh := Shape.eq_of_closed hopener hhere hend
    subst hsh
    rw [hf, show length = _ from hlen, List.take_left, ← hstrip, Shape.wrap, hformat]
    simp
  | unclosed hmem hunquoted hnever => exact absurd hend (hnever sh hcand _)

/-- A label without quotes is written in quotes, or as it is and then without brackets and outer blanks. -/
theorem formatLabel_cases {label : Text} (hq : '"' ∉ label) :
    formatLabel label = Text.quote label ∨
      label = Text.strip label ∧ (∀ c ∈ label, isBracket c = false) ∧ formatLabel label = label := by
  by_cases h : (label != Text.strip label || label.any isBracket) = true
  · exact Or.inl (by simp [formatLabel, h, hq])
  · have hformat : formatLabel label = label := by
      rw [formatLabel, if_neg]
      simp [h]
    simp only [Bool.or_eq_true, bne_iff_ne, ne_eq, List.any_eq_true, not_or, Decidable.not_not, not_exists,
      not_and, Bool.not_eq_true] at h
    exact Or.inr ⟨h.1, h.2, hformat⟩

/-- A label without quotes is read back with its shape. -/
theorem readShape_wrap (sh : Shape) {label : Text} (hq : '"' ∉ label) (hb : '\n' ∉ label) :
    readShape (sh.wrap label) = some ⟨sh, label, (sh.wrap label).length⟩ := by
  rw [← List.append_nil (sh.wrap label)]
  rcases formatLabel_cases hq with hformat | ⟨hstrip, hbracket, hformat⟩
  · rw [readShape_quoted sh hq hb hformat, List.append_nil]
  · rw [readShape_bare sh hq hb hstrip hbracket hformat, List.append_nil]

end DiagramText.Flowchart

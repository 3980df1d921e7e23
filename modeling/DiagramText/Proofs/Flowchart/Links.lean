import DiagramText.Flowchart.Link
import DiagramText.Proofs.Text.Parts
import Mathlib.Data.List.Basic

/-!
# Reading links

Each of the three ways to read a link is characterized by the text that it takes up (`readPiped_eq_some_iff`,
`readInline_eq_some_iff`, `readBare_eq_some_iff`), so what is read depends on the links that begin the text and on
nothing else (`readLink_congr`).  A link that can be written is read back (`readLink_format`), and what is read can be
written again (`writable_of_readLink`).
-/

namespace DiagramText.Flowchart

/-- The links that a text can hold: a label has no outer blanks and no line break, and if it holds a pipe, it fits into
the inner form of its type. -/
def Link.Writable (l : Link) : Prop :=
  ∀ label ∈ l.label, label ≠ [] → label = Text.strip label ∧ '\n' ∉ label ∧
    ('|' ∈ label → ∃ form ∈ l.type.inline?, form.bar ∉ label)

instance (l : Link) : Decidable l.Writable :=
  inferInstanceAs (Decidable (∀ label ∈ l.label, label ≠ [] → label = Text.strip label ∧ '\n' ∉ label ∧
    ('|' ∈ label → ∃ form ∈ l.type.inline?, form.bar ∉ label)))

/-- The link as a text keeps it: an empty label is none. -/
def Link.normal (l : Link) : Link := { l with label := l.label.filter (· ≠ []) }

/-! ### Symbols -/

namespace LinkType

theorem mem_all (type : LinkType) : type ∈ all := by cases type <;> decide

theorem break_not_mem_symbol (type : LinkType) : '\n' ∉ type.symbol := by cases type <;> decide

theorem three_le_symbol (type : LinkType) : 3 ≤ type.symbol.length := by cases type <;> decide

theorem break_not_mem_inline {type : LinkType} {form : Inline} (h : type.inline? = some form) :
    '\n' ∉ form.opener ∧ '\n' ∉ form.closer ∧ form.closer.head? = some form.bar ∧ form.bar ≠ ' ' := by
  cases type <;> cases h <;> decide

end LinkType

theorem label?_eq_some_iff {s label : Text} : label? s = some label ↔ label ≠ [] ∧ label = Text.strip s := by
  unfold label?
  dsimp only
  split
  · rename_i h
    constructor
    · intro h'
      cases h'
    · rintro ⟨hne, rfl⟩
      exact absurd h hne
  · rename_i h
    constructor
    · intro h'
      cases h'
      exact ⟨h, rfl⟩
    · rintro ⟨-, rfl⟩
      rfl

/-! ### The text of a link -/

/-- A symbol with a label between pipes, perhaps behind a gap. -/
def LinkType.piped (type : LinkType) (gap label : Text) : Text := type.symbol ++ (gap ++ '|' :: (label ++ ['|']))

/-- A symbol with a label inside. -/
def LinkType.Inline.around (form : LinkType.Inline) (label : Text) : Text :=
  form.opener ++ ' ' :: (label ++ ' ' :: form.closer)

theorem LinkType.length_piped (type : LinkType) (gap label : Text) :
    (type.piped gap label).length = type.symbol.length + gap.length + label.length + 2 := by
  simp only [piped, List.length_append, List.length_cons, List.length_nil]
  omega

theorem LinkType.Inline.length_around (form : LinkType.Inline) (label : Text) :
    (form.around label).length = form.opener.length + label.length + form.closer.length + 2 := by
  simp only [around, List.length_append, List.length_cons]
  omega

theorem format_eq_cons (l : Link) : ∃ c t, l.format = c :: t ∧ c ∈ ['-', '=', '~'] := by
  have hsymbol : ∀ type : LinkType, ∃ c t, type.symbol = c :: t ∧ c ∈ ['-', '=', '~'] := by
    intro type
    cases type <;> exact ⟨_, _, rfl, by decide⟩
  obtain ⟨c, t, hct, hc⟩ := hsymbol l.type
  unfold Link.format
  split
  · exact ⟨c, t, hct, hc⟩
  · exact ⟨c, t, hct, hc⟩
  · rename_i d r _
    dsimp only
    split
    · rename_i form hform
      split
      · have hopener : ∃ c t, form.opener = c :: t ∧ c ∈ ['-', '=', '~'] := by
          revert hform
          cases l.type <;> intro hform <;> cases hform <;> exact ⟨_, _, rfl, by decide⟩
        obtain ⟨b, u, hbu, hb⟩ := hopener
        rw [hbu]
        exact ⟨b, _, rfl, hb⟩
      · rw [hct]
        exact ⟨c, _, rfl, hc⟩
    · rw [hct]
      exact ⟨c, _, rfl, hc⟩

/-- A label between pipes is read, whatever follows. -/
private theorem readPiped_piped {type : LinkType} {gap label : Text} (hgap : ∀ c ∈ gap, Text.isSpace c = true)
    (hpipe : '|' ∉ label) (hbreak : '\n' ∉ label) (r : Text) : readPiped (type.piped gap label ++ r) type =
      some ⟨⟨type, label? label⟩, (type.piped gap label).length⟩ := by
  have htext : type.piped gap label ++ r = type.symbol ++ (gap ++ '|' :: (label ++ '|' :: r)) := by
    simp [LinkType.piped]
  have hspace : (gap ++ '|' :: (label ++ '|' :: r)).takeWhile Text.isSpace = gap :=
    Text.takeWhile_append_exact hgap (by simp [Text.isSpace])
  have hlabel : (label ++ '|' :: r).takeWhile (fun c => c != '|' && c != '\n') = label :=
    Text.takeWhile_append_bar hpipe hbreak rfl
  rw [htext, readPiped, if_pos (List.isPrefixOf_iff_prefix.2 (List.prefix_append _ _)), type.length_piped]
  simp only [List.drop_left, hspace, List.head?_cons, if_true, List.drop_succ_cons, List.drop_zero, Nat.add_comm 1,
    hlabel]

theorem readPiped_eq_some_iff {s : Text} {type : LinkType} {f : Linked} :
    readPiped s type = some f ↔ ∃ gap label, (∀ c ∈ gap, Text.isSpace c = true) ∧ '|' ∉ label ∧ '\n' ∉ label ∧
      type.piped gap label <+: s ∧ f = ⟨⟨type, label? label⟩, (type.piped gap label).length⟩ := by
  constructor
  · intro h
    unfold readPiped at h
    split at h
    case isFalse => cases h
    rename_i hsymbol
    obtain ⟨r, rfl⟩ := List.isPrefixOf_iff_prefix.1 hsymbol
    simp only [List.drop_left] at h
    have hgap := List.all_eq_true.1 (List.all_takeWhile (p := Text.isSpace) (l := r))
    obtain ⟨u, hu⟩ : r.takeWhile Text.isSpace <+: r := List.takeWhile_prefix _
    generalize r.takeWhile Text.isSpace = gap at h hgap hu
    subst hu
    rw [List.drop_left] at h
    split at h
    case isFalse => cases h
    rename_i hopen
    obtain ⟨u, rfl⟩ := List.head?_eq_some_iff.1 hopen
    simp only [List.drop_succ_cons, List.drop_zero, Nat.add_comm 1] at h
    obtain ⟨hpipe, hbreak⟩ := Text.not_mem_takeWhile_bar '|' u
    obtain ⟨v, hv⟩ : u.takeWhile (fun c => c != '|' && c != '\n') <+: u := List.takeWhile_prefix _
    generalize u.takeWhile (fun c => c != '|' && c != '\n') = label at h hpipe hbreak hv
    subst hv
    rw [List.drop_left] at h
    split at h
    case isFalse => cases h
    rename_i hclose
    obtain ⟨v, rfl⟩ := List.head?_eq_some_iff.1 hclose
    refine ⟨gap, label, hgap, hpipe, hbreak, ⟨v, by simp [LinkType.piped]⟩, ?_⟩
    rw [type.length_piped]
    exact (Option.some.inj h).symm
  · rintro ⟨gap, label, hgap, hpipe, hbreak, ⟨r, rfl⟩, rfl⟩
    exact readPiped_piped hgap hpipe hbreak r

/-- A label inside a link is read, whatever follows. -/
private theorem readInline_around {type : LinkType} {form : LinkType.Inline} (hform : type.inline? = some form)
    {label : Text} (hne : label ≠ []) (hbar : form.bar ∉ label) (hbreak : '\n' ∉ label) (r : Text) :
    readInline (form.around label ++ r) type = some ⟨⟨type, label? label⟩, (form.around label).length⟩ := by
  obtain ⟨-, -, hhead, hspace⟩ := LinkType.break_not_mem_inline hform
  have hopener : form.opener ++ [' '] <+: form.around label ++ r := ⟨label ++ ' ' :: (form.closer ++ r), by
    simp [LinkType.Inline.around]⟩
  have hbehind : (form.around label ++ r).drop (form.opener ++ [' ']).length =
      (label ++ [' ']) ++ (form.closer ++ r) := by
    have htext : form.around label ++ r = (form.opener ++ [' ']) ++ ((label ++ [' ']) ++ (form.closer ++ r)) := by
      simp [LinkType.Inline.around]
    rw [htext, List.drop_left]
  have hbody : ((label ++ [' ']) ++ (form.closer ++ r)).takeWhile (fun c => c != form.bar && c != '\n') =
      label ++ [' '] := by
    apply Text.takeWhile_append_bar
    · simp [hbar, hspace]
    · simp [hbreak]
    · rw [List.head?_append, hhead]
      rfl
  have hlength : 2 ≤ (label ++ [' ']).length := by
    have := List.length_pos_iff.2 hne
    rw [List.length_append, List.length_singleton]
    omega
  have hcloser : form.closer.isPrefixOf ((form.around label ++ r).drop
      ((form.opener ++ [' ']).length + (label ++ [' ']).length)) = true := by
    rw [← List.drop_drop, hbehind, List.drop_left]
    exact List.isPrefixOf_iff_prefix.2 (List.prefix_append _ _)
  rw [readInline, hform, Option.bind_some]
  dsimp only
  rw [if_pos (List.isPrefixOf_iff_prefix.2 hopener), hbehind, hbody, if_pos ⟨hlength, List.getLast?_concat, hcloser⟩,
    List.dropLast_concat, form.length_around]
  simp only [List.length_append, List.length_singleton, Option.some.injEq, Linked.mk.injEq, true_and]
  omega

theorem readInline_eq_some_iff {s : Text} {type : LinkType} {f : Linked} :
    readInline s type = some f ↔ ∃ form label, type.inline? = some form ∧ label ≠ [] ∧ form.bar ∉ label ∧
      '\n' ∉ label ∧ form.around label <+: s ∧ f = ⟨⟨type, label? label⟩, (form.around label).length⟩ := by
  constructor
  · intro h
    rw [readInline, Option.bind_eq_some_iff] at h
    obtain ⟨form, hform, h⟩ := h
    dsimp only at h
    split at h
    case isFalse => cases h
    rename_i hopener
    obtain ⟨r, rfl⟩ := List.isPrefixOf_iff_prefix.1 hopener
    simp only [List.drop_left] at h
    obtain ⟨hbar, hbreak⟩ := Text.not_mem_takeWhile_bar form.bar r
    obtain ⟨u, hu⟩ : r.takeWhile (fun c => c != form.bar && c != '\n') <+: r := List.takeWhile_prefix _
    generalize r.takeWhile (fun c => c != form.bar && c != '\n') = body at h hbar hbreak hu
    subst hu
    rw [← List.append_assoc, ← List.length_append, List.drop_left] at h
    split at h
    case isFalse => cases h
    rename_i hcond
    obtain ⟨hlength, hlast, hcloser⟩ := hcond
    obtain ⟨v, rfl⟩ := List.isPrefixOf_iff_prefix.1 hcloser
    -- the body is the label and a space
    obtain ⟨label, rfl⟩ : ∃ label, body = label ++ [' '] :=
      ⟨body.dropLast, (List.dropLast_append_getLast? _ hlast).symm⟩
    rw [List.dropLast_concat] at h
    cases h
    rw [List.mem_append, not_or] at hbar hbreak
    refine ⟨form, label, hform, ?_, hbar.1, hbreak.1, ⟨v, by simp [LinkType.Inline.around]⟩, ?_⟩
    · rintro rfl
      simp at hlength
    · rw [form.length_around]
      simp only [List.length_append, List.length_singleton, Linked.mk.injEq, true_and]
      omega
  · rintro ⟨form, label, hform, hne, hbar, hbreak, ⟨r, rfl⟩, rfl⟩
    exact readInline_around hform hne hbar hbreak r

theorem readBare_eq_some_iff {s : Text} {type : LinkType} {f : Linked} :
    readBare s type = some f ↔ type.symbol <+: s ∧ f = ⟨⟨type, none⟩, type.symbol.length⟩ := by
  unfold readBare
  split
  · rename_i h
    rw [List.isPrefixOf_iff_prefix] at h
    rw [Option.some.injEq]
    exact ⟨fun e => ⟨h, e.symm⟩, fun e => e.2.symm⟩
  · rename_i h
    rw [List.isPrefixOf_iff_prefix] at h
    exact ⟨fun e => (by cases e), fun e => absurd e.1 h⟩

/-! ### What is read of a link -/

/-- A link is read by one of its types, in one of the three ways. -/
theorem readLink_cases {s : Text} {f : Linked} (h : readLink s = some f) :
    ∃ type, readPiped s type = some f ∨ readInline s type = some f ∨ readBare s type = some f := by
  have hfind : ∀ {g : LinkType → Option Linked}, LinkType.all.findSome? g = some f → ∃ type, g type = some f := by
    intro g hg
    obtain ⟨l₁, type, l₂, -, ht, -⟩ := List.findSome?_eq_some_iff.1 hg
    exact ⟨type, ht⟩
  unfold readLink at h
  cases hpiped : LinkType.all.findSome? (readPiped s) with
  | some g =>
    rw [hpiped] at h
    cases h
    obtain ⟨type, ht⟩ := hfind hpiped
    exact ⟨type, Or.inl ht⟩
  | none =>
    cases hinline : LinkType.all.findSome? (readInline s) with
    | some g =>
      rw [hpiped, hinline] at h
      cases h
      obtain ⟨type, ht⟩ := hfind hinline
      exact ⟨type, Or.inr (Or.inl ht)⟩
    | none =>
      rw [hpiped, hinline] at h
      obtain ⟨type, ht⟩ := hfind h
      exact ⟨type, Or.inr (Or.inr ht)⟩

theorem readLink_length {s : Text} {f : Linked} (h : readLink s = some f) : 3 ≤ f.length ∧ f.length ≤ s.length := by
  obtain ⟨type, h | h | h⟩ := readLink_cases h
  · obtain ⟨gap, label, -, -, -, hs, rfl⟩ := readPiped_eq_some_iff.1 h
    refine ⟨?_, hs.length_le⟩
    have := type.three_le_symbol
    simp only [type.length_piped]
    omega
  · obtain ⟨form, label, hform, -, -, -, hs, rfl⟩ := readInline_eq_some_iff.1 h
    refine ⟨?_, hs.length_le⟩
    have : 2 ≤ form.opener.length := by
      cases type <;> cases hform <;> decide
    simp only [form.length_around]
    omega
  · obtain ⟨hs, rfl⟩ := readBare_eq_some_iff.1 h
    exact ⟨type.three_le_symbol, hs.length_le⟩

/-- The texts that links take up. -/
inductive Link.Spelling : Text → Prop
  | piped (type : LinkType) {gap label : Text} (hgap : ∀ c ∈ gap, Text.isSpace c = true) (hbreak : '\n' ∉ label) :
      Spelling (type.piped gap label)
  | around {type : LinkType} {form : LinkType.Inline} (hform : type.inline? = some form) {label : Text}
      (hbreak : '\n' ∉ label) : Spelling (form.around label)
  | symbol (type : LinkType) : Spelling type.symbol

theorem Link.Spelling.break_not_mem {u : Text} (h : Link.Spelling u) : '\n' ∉ u := by
  cases h with
  | @piped type gap label hgap hbreak =>
    have hspace : '\n' ∉ gap := fun h => absurd (hgap _ h) (by decide)
    simp [LinkType.piped, type.break_not_mem_symbol, hspace, hbreak]
  | around hform hbreak =>
    obtain ⟨hopener, hcloser, -, -⟩ := LinkType.break_not_mem_inline hform
    simp [LinkType.Inline.around, hopener, hcloser, hbreak]
  | symbol type => exact type.break_not_mem_symbol

/-- A link does not end with a blank. -/
theorem Link.Spelling.getLast? {u : Text} (h : Link.Spelling u) : ∀ c ∈ u.getLast?, Text.isBlank c = false := by
  obtain ⟨v, d, rfl, hd⟩ : ∃ v d, u = v ++ [d] ∧ Text.isBlank d = false := by
    cases h with
    | @piped type gap label hgap hbreak =>
      exact ⟨type.symbol ++ (gap ++ '|' :: label), '|', by simp [LinkType.piped], by decide⟩
    | @around type form hform label hbreak =>
      obtain ⟨v, d, hv, hd⟩ : ∃ v d, form.closer = v ++ [d] ∧ Text.isBlank d = false := by
        cases type <;> cases hform <;>
          exact ⟨_, _, (List.dropLast_concat_getLast (by decide)).symm, by decide⟩
      exact ⟨form.opener ++ ' ' :: (label ++ ' ' :: v), d, by simp [LinkType.Inline.around, hv], hd⟩
    | symbol type => cases type <;> exact ⟨_, _, (List.dropLast_concat_getLast (by decide)).symm, by decide⟩
  intro c hc
  rw [List.getLast?_concat] at hc
  cases hc
  exact hd

/-- Where the same links can begin, the same link is read. -/
theorem readLink_congr {s t : Text} (h : ∀ u, Link.Spelling u → (u <+: s ↔ u <+: t)) : readLink s = readLink t := by
  have hpiped : readPiped s = readPiped t := by
    funext type
    apply Option.ext
    intro f
    rw [readPiped_eq_some_iff, readPiped_eq_some_iff]
    refine exists_congr fun gap => exists_congr fun label => and_congr_right fun hgap => and_congr_right fun _ =>
      and_congr_right fun hbreak => ?_
    rw [h _ (.piped type hgap hbreak)]
  have hinline : readInline s = readInline t := by
    funext type
    apply Option.ext
    intro f
    rw [readInline_eq_some_iff, readInline_eq_some_iff]
    refine exists_congr fun form => exists_congr fun label => and_congr_right fun hform => and_congr_right fun _ =>
      and_congr_right fun _ => and_congr_right fun hbreak => ?_
    rw [h _ (.around hform hbreak)]
  have hbare : readBare s = readBare t := by
    funext type
    apply Option.ext
    intro f
    rw [readBare_eq_some_iff, readBare_eq_some_iff, h _ (.symbol type)]
  rw [readLink, readLink, hpiped, hinline, hbare]

/-- Links are read within a line. -/
theorem readLink_firstLine (s : Text) : readLink (Text.firstLine s) = readLink s :=
  readLink_congr fun _ hu => Text.prefix_firstLine_iff hu.break_not_mem

/-- A blank at the end of a text is part of no link. -/
theorem readLink_append_blank {c : Char} (hc : Text.isBlank c = true) (s : Text) :
    readLink (s ++ [c]) = readLink s := by
  refine readLink_congr fun u hu => ?_
  rw [List.prefix_concat_iff]
  refine or_iff_right ?_
  rintro rfl
  have hblank := hu.getLast? c (by simp)
  rw [hc] at hblank
  cases hblank

/-- A link that is read can be written as it is. -/
theorem writable_of_readLink {s : Text} {f : Linked} (h : readLink s = some f) :
    f.link.Writable ∧ f.link.normal = f.link := by
  have hlabel : ∀ (type : LinkType) (label : Text), '\n' ∉ label →
      ('|' ∈ label → ∃ form ∈ type.inline?, form.bar ∉ label) →
      (Link.mk type (label? label)).Writable ∧ (Link.mk type (label? label)).normal = ⟨type, label? label⟩ := by
    intro type label hbreak hpipe
    cases hl : label? label with
    | none => exact ⟨fun l hl => (by cases hl), rfl⟩
    | some l =>
      obtain ⟨hne, rfl⟩ := label?_eq_some_iff.1 hl
      refine ⟨?_, by simp [Link.normal, hne]⟩
      intro m hm _
      cases hm
      refine ⟨(Text.strip_strip label).symm, fun hb => hbreak (Text.mem_of_mem_strip hb), ?_⟩
      intro hp
      obtain ⟨form, hform, hbar⟩ := hpipe (Text.mem_of_mem_strip hp)
      exact ⟨form, hform, fun hb => hbar (Text.mem_of_mem_strip hb)⟩
  obtain ⟨type, h | h | h⟩ := readLink_cases h
  · obtain ⟨gap, label, -, hpipe, hbreak, -, rfl⟩ := readPiped_eq_some_iff.1 h
    exact hlabel type label hbreak fun hp => absurd hp hpipe
  · obtain ⟨form, label, hform, -, hbar, hbreak, -, rfl⟩ := readInline_eq_some_iff.1 h
    exact hlabel type label hbreak fun _ => ⟨form, hform, hbar⟩
  · obtain ⟨-, rfl⟩ := readBare_eq_some_iff.1 h
    exact ⟨fun l hl => (by cases hl), rfl⟩

/-! ### A link as it is written -/

/-- The only symbol that begins another one is the dotted line. -/
private theorem eq_of_prefix_symbol {a b : LinkType} (h : a.symbol <+: b.symbol) :
    a = b ∨ a = .dotted ∧ b = .dottedArrow := by
  have hall : ∀ a ∈ LinkType.all, ∀ b ∈ LinkType.all, a.symbol <+: b.symbol →
      a = b ∨ a = .dotted ∧ b = .dottedArrow := by
    decide
  exact hall a a.mem_all b b.mem_all h

/-- Two symbols begin a text together only if they are one, or if one is the dotted arrow and the other its line. -/
private theorem symbol_append {a b : LinkType} {x y : Text} (h : a.symbol ++ x = b.symbol ++ y) :
    (b = a ∧ y = x) ∨ (a = .dottedArrow ∧ b = .dotted ∧ y = '>' :: x) ∨
      (a = .dotted ∧ b = .dottedArrow ∧ x = '>' :: y) := by
  have harrow : LinkType.dottedArrow.symbol = LinkType.dotted.symbol ++ ['>'] := rfl
  have hprefix : a.symbol <+: b.symbol ++ y := h ▸ List.prefix_append _ _
  rcases List.prefix_or_prefix_of_prefix hprefix (List.prefix_append _ _) with hab | hba
  · rcases eq_of_prefix_symbol hab with rfl | ⟨rfl, rfl⟩
    · exact Or.inl ⟨rfl, (List.append_cancel_left h).symm⟩
    · rw [harrow, List.append_assoc] at h
      exact Or.inr (Or.inr ⟨rfl, rfl, List.append_cancel_left h⟩)
  · rcases eq_of_prefix_symbol hba with rfl | ⟨rfl, rfl⟩
    · exact Or.inl ⟨rfl, (List.append_cancel_left h).symm⟩
    · rw [harrow, List.append_assoc] at h
      exact Or.inr (Or.inl ⟨rfl, rfl, (List.append_cancel_left h).symm⟩)

/-- Behind the opener of an inner form stands a space, and a symbol has none. -/
private theorem symbol_ne_opener {a b : LinkType} {form : LinkType.Inline} {x y : Text} (hb : b.inline? = some form) :
    a.symbol ++ x ≠ form.opener ++ ' ' :: y := by
  intro h
  have hopener : form.opener.length = 2 := by
    cases b <;> cases hb <;> rfl
  have hspace : (a.symbol ++ x)[2]? = some ' ' := by
    rw [h, List.getElem?_append_right (Nat.le_of_eq hopener), hopener]
    rfl
  rw [List.getElem?_append_left a.three_le_symbol] at hspace
  have hnone : ∀ a ∈ LinkType.all, ' ' ∉ a.symbol := by decide
  exact hnone a a.mem_all (List.mem_of_getElem? hspace)

theorem findSome?_eq_of_first {g : LinkType → Option Linked} {type : LinkType} {f : Linked} (h : g type = some f)
    (hfirst : ∀ t ∈ LinkType.all.takeWhile (· ≠ type), g t = none) : LinkType.all.findSome? g = some f := by
  rw [List.findSome?_eq_some_iff]
  refine ⟨LinkType.all.takeWhile (· ≠ type), type, (LinkType.all.dropWhile (· ≠ type)).tail, ?_, h, hfirst⟩
  cases type <;> rfl

private theorem findSome?_eq_none {g : LinkType → Option Linked} (h : ∀ t, g t = none) :
    LinkType.all.findSome? g = none := List.findSome?_eq_none_iff.2 fun t _ => h t

/-- No link with a label between pipes is read where none begins. -/
private theorem readPiped_eq_none {s : Text} {type : LinkType} (h : ∀ gap label, (∀ c ∈ gap, Text.isSpace c = true) →
    ¬ type.piped gap label <+: s) : readPiped s type = none := by
  cases hr : readPiped s type with
  | none => rfl
  | some f =>
    obtain ⟨gap, label, hgap, -, -, hs, -⟩ := readPiped_eq_some_iff.1 hr
    exact absurd hs (h gap label hgap)

private theorem readInline_eq_none {s : Text} {type : LinkType} (h : ∀ form label, type.inline? = some form →
    form.bar ∉ label → ¬ form.around label <+: s) : readInline s type = none := by
  cases hr : readInline s type with
  | none => rfl
  | some f =>
    obtain ⟨form, label, hform, -, hbar, -, hs, -⟩ := readInline_eq_some_iff.1 hr
    exact absurd hs (h form label hform hbar)

/-- Behind a symbol, a space and then no pipe, no label between pipes is read. -/
private theorem not_prefix_piped {a b : LinkType} {r gap label : Text} (hgap : ∀ c ∈ gap, Text.isSpace c = true)
    (hr : ∀ c ∈ r.head?, Text.isSpace c = false ∧ c ≠ '|') : ¬ b.piped gap label <+: a.symbol ++ ' ' :: r := by
  rintro ⟨t, ht⟩
  rw [LinkType.piped, List.append_assoc] at ht
  have hskip : ((gap ++ '|' :: (label ++ ['|'])) ++ t).dropWhile Text.isSpace = '|' :: (label ++ ['|'] ++ t) := by
    rw [List.append_assoc, List.dropWhile_append_of_pos hgap, List.cons_append, List.dropWhile_cons,
      if_neg (by decide)]
  rcases symbol_append ht.symm with ⟨-, h⟩ | ⟨-, -, h⟩ | ⟨-, -, h⟩
  · rw [h, List.dropWhile_cons, if_pos (by decide)] at hskip
    cases r with
    | nil => cases hskip
    | cons d r =>
      obtain ⟨hspace, hpipe⟩ := hr d rfl
      rw [List.dropWhile_cons, if_neg (by simp [hspace])] at hskip
      exact hpipe (List.cons.inj hskip).1
  · rw [h, List.dropWhile_cons, if_neg (by decide)] at hskip
    cases hskip
  · cases h

theorem readLink_bare (type : LinkType) {r : Text} (hr : ∀ c ∈ r.head?, Text.isSpace c = false ∧ c ≠ '|') :
    readLink (type.symbol ++ ' ' :: r) = some ⟨⟨type, none⟩, type.symbol.length⟩ := by
  have hpiped : LinkType.all.findSome? (readPiped (type.symbol ++ ' ' :: r)) = none := by
    apply findSome?_eq_none
    intro t
    apply readPiped_eq_none
    intro gap label hgap
    exact not_prefix_piped hgap hr
  have hinline : LinkType.all.findSome? (readInline (type.symbol ++ ' ' :: r)) = none := by
    apply findSome?_eq_none
    intro t
    apply readInline_eq_none
    rintro form label hform - ⟨u, hu⟩
    rw [LinkType.Inline.around, List.append_assoc, List.cons_append] at hu
    exact symbol_ne_opener hform hu.symm
  have hbare : LinkType.all.findSome? (readBare (type.symbol ++ ' ' :: r)) =
      some ⟨⟨type, none⟩, type.symbol.length⟩ := by
    cases type <;> rfl
  rw [readLink, hpiped, hinline, hbare]
  rfl

theorem readLink_piped (type : LinkType) {label r : Text} (hp : '|' ∉ label) (hb : '\n' ∉ label) :
    readLink (type.piped [] label ++ r) = some ⟨⟨type, label? label⟩, (type.piped [] label).length⟩ := by
  have hread : readPiped (type.piped [] label ++ r) type = some ⟨⟨type, label? label⟩, (type.piped [] label).length⟩ :=
    readPiped_eq_some_iff.2 ⟨[], label, by simp, hp, hb, List.prefix_append _ _, rfl⟩
  have hpiped : LinkType.all.findSome? (readPiped (type.piped [] label ++ r)) =
      some ⟨⟨type, label? label⟩, (type.piped [] label).length⟩ := by
    apply findSome?_eq_of_first hread
    intro t ht
    have hne : t ≠ type := by simpa using List.all_eq_true.1 List.all_takeWhile t ht
    apply readPiped_eq_none
    rintro gap label' hgap ⟨u, hu⟩
    simp only [LinkType.piped, List.append_assoc, List.nil_append] at hu
    rcases symbol_append hu.symm with ⟨h, -⟩ | ⟨-, -, h⟩ | ⟨-, -, h⟩
    · exact hne h
    · cases gap with
      | nil => cases h
      | cons c gap =>
        have hc := hgap c List.mem_cons_self
        rw [(List.cons.inj h).1] at hc
        exact absurd hc (by decide)
    · cases h
  rw [readLink, hpiped]
  rfl

/-- Inner forms of one text have one label. -/
private theorem around_inj {bar : Char} {a b x y : Text} (ha : bar ∉ a) (hb : bar ∉ b) (hx : x.head? = some bar)
    (hy : y.head? = some bar) (hbar : bar ≠ ' ') (h : a ++ ' ' :: x = b ++ ' ' :: y) : a = b ∧ x = y := by
  have hcut : ∀ {l z : Text}, bar ∉ l → z.head? = some bar → (l ++ ' ' :: z).takeWhile (· != bar) = l ++ [' '] := by
    intro l z hl hz
    have hsplit : l ++ ' ' :: z = (l ++ [' ']) ++ z := by simp
    rw [hsplit]
    apply Text.takeWhile_append_exact
    · intro c hc
      rcases List.mem_append.1 hc with hc | hc
      · simpa using fun e : c = bar => hl (e ▸ hc)
      · rw [List.mem_singleton.1 hc]
        simpa using Ne.symm hbar
    · intro c hc
      rw [hz] at hc
      cases hc
      simp
  have hab := congrArg (List.takeWhile (· != bar)) h
  rw [hcut ha hx, hcut hb hy, List.append_cancel_right_eq] at hab
  subst hab
  simpa using h

/-- An inner form that is tried before another of the same opening does not close where that one does. -/
private theorem inline_before {type t : LinkType} {form form' : LinkType.Inline} {x y : Text}
    (hform : type.inline? = some form) (hform' : t.inline? = some form')
    (ht : t ∈ LinkType.all.takeWhile (· ≠ type)) (h : form'.opener ++ ' ' :: x = form.opener ++ ' ' :: y) :
    form'.bar = form.bar ∧ x = y ∧ ∀ u v, form'.closer ++ u ≠ form.closer ++ ' ' :: v := by
  cases type <;> cases t <;> first
    | exact absurd ht (by decide)
    | (cases hform; done)
    | (cases hform'; done)
    | (cases hform; cases hform'; simp at h; done)
    | (cases hform; cases hform'; simpa using h)

theorem readLink_around {type : LinkType} {form : LinkType.Inline} (hform : type.inline? = some form) {label r : Text}
    (hne : label ≠ []) (hbar : form.bar ∉ label) (hb : '\n' ∉ label) :
    readLink (form.around label ++ ' ' :: r) = some ⟨⟨type, label? label⟩, (form.around label).length⟩ := by
  have htext : form.around label ++ ' ' :: r = form.opener ++ ' ' :: (label ++ ' ' :: (form.closer ++ ' ' :: r)) := by
    simp [LinkType.Inline.around]
  have hpiped : LinkType.all.findSome? (readPiped (form.around label ++ ' ' :: r)) = none := by
    apply findSome?_eq_none
    intro t
    apply readPiped_eq_none
    rintro gap label' - ⟨u, hu⟩
    rw [htext, LinkType.piped, List.append_assoc] at hu
    exact symbol_ne_opener hform hu
  have hread : readInline (form.around label ++ ' ' :: r) type =
      some ⟨⟨type, label? label⟩, (form.around label).length⟩ :=
    readInline_eq_some_iff.2 ⟨form, label, hform, hne, hbar, hb, List.prefix_append _ _, rfl⟩
  have hinline : LinkType.all.findSome? (readInline (form.around label ++ ' ' :: r)) =
      some ⟨⟨type, label? label⟩, (form.around label).length⟩ := by
    apply findSome?_eq_of_first hread
    intro t ht
    apply readInline_eq_none
    rintro form' label' hform' hbar' ⟨u, hu⟩
    rw [htext, LinkType.Inline.around, List.append_assoc, List.cons_append, List.append_assoc, List.cons_append] at hu
    obtain ⟨hsame, hbody, hcloser⟩ := inline_before hform hform' ht hu
    obtain ⟨-, -, hhead, hspace⟩ := LinkType.break_not_mem_inline hform
    obtain ⟨-, -, hhead', -⟩ := LinkType.break_not_mem_inline hform'
    rw [hsame] at hbar' hhead'
    have hhead : (form.closer ++ ' ' :: r).head? = some form.bar := by
      rw [List.head?_append, hhead]
      rfl
    have hhead' : (form'.closer ++ u).head? = some form.bar := by
      rw [List.head?_append, hhead']
      rfl
    exact hcloser _ _ (around_inj hbar' hbar hhead' hhead hspace hbody).2
  rw [readLink, hpiped, hinline]
  rfl

/-- A link that can be written is read back, if no pipe follows the space behind it. -/
theorem readLink_format {l : Link} (h : l.Writable) {r : Text}
    (hr : ∀ c ∈ r.head?, Text.isSpace c = false ∧ c ≠ '|') :
    readLink (l.format ++ ' ' :: r) = some ⟨l.normal, l.format.length⟩ := by
  obtain ⟨type, label⟩ := l
  rcases label with _ | _ | ⟨c, label⟩
  · exact readLink_bare type hr
  · exact readLink_bare type hr
  · obtain ⟨hstrip, hbreak, hpipe⟩ := h (c :: label) rfl (by simp)
    have hlabel : label? (c :: label) = some (c :: label) := label?_eq_some_iff.2 ⟨by simp, hstrip⟩
    have hnormal : Link.normal ⟨type, some (c :: label)⟩ = ⟨type, label? (c :: label)⟩ := by
      rw [hlabel]
      rfl
    have hpiped : (type.symbol ++ '|' :: (c :: label) ++ ['|']) = type.piped [] (c :: label) := by
      simp [LinkType.piped]
    rw [hnormal]
    unfold Link.format
    dsimp only
    by_cases hp : '|' ∈ c :: label
    · obtain ⟨form, hform, hbar⟩ := hpipe hp
      have hinner : ((c :: label).contains '|' && !(c :: label).contains form.bar) = true := by
        simp only [List.contains_eq_mem, Bool.and_eq_true, Bool.not_eq_true', decide_eq_true_eq,
          decide_eq_false_iff_not]
        exact ⟨hp, hbar⟩
      have haround : form.opener ++ ' ' :: (c :: label) ++ ' ' :: form.closer = form.around (c :: label) := by
        simp [LinkType.Inline.around]
      rw [show type.inline? = some form from hform]
      simp only [hinner, if_true, haround]
      exact readLink_around hform (by simp) hbar hbreak
    · have houter : ∀ form : LinkType.Inline,
          ((c :: label).contains '|' && !(c :: label).contains form.bar) = false := by
        intro form
        simp only [List.contains_eq_mem, Bool.and_eq_false_iff, decide_eq_false_iff_not]
        exact Or.inl hp
      cases type.inline? with
      | none =>
        simp only [hpiped]
        exact readLink_piped type hp hbreak
      | some form =>
        simp only [houter, Bool.false_eq_true, if_false, hpiped]
        exact readLink_piped type hp hbreak

end DiagramText.Flowchart

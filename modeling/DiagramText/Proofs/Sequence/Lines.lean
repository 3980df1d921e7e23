import DiagramText.Proofs.Sequence.FreeText
import DiagramText.Proofs.Sequence.Places

/-!
# The lines of sequence text

Each line reads as one statement (`Reads`), inside the blocks that it fits and whatever line follows.  A label ends its
line and is read as `freed` says (`readText_spaced`); the tokens that it is cut into are passed over.
`statements_lines` puts the lines together.
-/

namespace DiagramText.Sequence

/-! ### Labels -/

/-- What stands behind a keyword in front of a label. -/
def spaced (label : Text) : Text := Text.stripEnd (' ' :: label)

/-- The tokens of a label behind a colon. -/
def colonKinds (label : Text) : List Kind :=
  if label = [] then [] else .colon (' ' :: label) :: kinds rule label

theorem freed_spaced (label : Text) : freed (spaced label) = freed label := freed_stripEnd (' ' :: label)

private theorem break_not_mem_space {s : Text} (hs : '\n' ∉ s) : '\n' ∉ ' ' :: s :=
  List.not_mem_cons_of_ne_of_not_mem (by decide) hs

theorem break_not_mem_spaced {label : Text} (h : '\n' ∉ label) : '\n' ∉ spaced label := fun hmem =>
  break_not_mem_space h ((Text.prefix_trimEnd _ _).subset hmem)

theorem keywordText_eq {w : Text} (hw : Text.isWord w = true) (label : Text) :
    keywordText w label = w ++ spaced label := by
  apply Text.trimEnd_append
  intro c hc
  have hword := (Text.isWord_iff.1 hw).2.1 c (List.mem_of_getLast? hc)
  cases hb : Text.isBlank c with
  | false => rfl
  | true => rw [Text.isWordChar_eq_false_of_isBlank hb] at hword; cases hword

private theorem head?_spaced (label : Text) : ∀ c ∈ (spaced label).head?, Text.isWordChar c = false := by
  intro c hc
  obtain ⟨r, hr⟩ := Text.prefix_trimEnd Text.isBlank (' ' :: label)
  have hhead : (spaced label ++ r).head? = some ' ' := congrArg List.head? hr
  rw [List.head?_append, hc] at hhead
  cases hhead
  decide

theorem kinds_keywordText {w label : Text} (hw : Text.isWord w = true) (h : '\n' ∉ label) :
    kinds rule (keywordText w label) = Kind.ofWord w (spaced label) :: kinds rule (spaced label) := by
  rw [keywordText_eq hw, kinds_word hw (head?_spaced label), Text.firstLine_of_not_mem (break_not_mem_spaced h)]

theorem kinds_colonText {label : Text} (h : '\n' ∉ label) : kinds rule (colonText label) = colonKinds label := by
  unfold colonText colonKinds
  split
  · exact kinds_nil rule
  · show kinds rule (':' :: ' ' :: label) = _
    rw [kinds_colon, Text.firstLine_of_not_mem (break_not_mem_space h), kinds_space]

/-! ### Reading labels -/

/-- A label is read back without what makes it more than free text, whatever tokens it is cut into. -/
theorem readText_spaced {label : Text} (h : '\n' ∉ label) {rest : List Kind} (hr : LineEnd rest) :
    readText (spaced label) (unplaced (kinds rule (spaced label) ++ rest)) = (freed label, unplaced rest) := by
  rw [readText_unplaced (break_not_mem_spaced h) hr, freed_spaced]

theorem readColonText_label {label : Text} (h : '\n' ∉ label) {rest : List Kind} (hr : LineEnd rest) :
    readColonText (unplaced (colonKinds label ++ rest)) = (freed label, unplaced rest) := by
  unfold colonKinds
  split
  · rename_i hnil
    rw [hnil]
    cases rest with
    | nil => rfl
    | cons k rest =>
      rw [hr k rfl]
      rfl
  · have hspace := readText_unplaced (break_not_mem_space h) hr
    rwa [kinds_space] at hspace

/-! ### Reading names -/

@[simp] theorem key?_keyKind (key : Text) : (keyKind key).key? = some key := by
  unfold keyKind
  split <;> rfl

private theorem isBreak_keyKind (key : Text) : (keyKind key).isBreak = false := by
  unfold keyKind
  split <;> rfl

theorem break_not_mem_formatKey {key : Text} (h : Text.isQuotable key = true) : '\n' ∉ formatKey key := by
  rw [Text.isQuotable_iff] at h
  unfold formatKey
  split
  · exact h.2
  · simp [Text.quote, h.2]

/-- The tokens of names with commas between them. -/
def keyKinds : List Text → List Kind
  | [] => []
  | [key] => [keyKind key]
  | key :: keys => keyKind key :: .comma :: keyKinds keys

private theorem intercalate_keys {key : Text} {keys : List Text} (hne : keys ≠ []) :
    [','].intercalate ((key :: keys).map formatKey) =
      formatKey key ++ ',' :: [','].intercalate (keys.map formatKey) := by
  rw [List.map_cons, List.intercalate_cons_of_ne_nil (by simpa using hne), List.append_assoc]
  rfl

theorem kinds_keys {keys : List Text} (h : ∀ key ∈ keys, Text.isQuotable key = true) {rest : Text}
    (hr : ∀ c ∈ rest.head?, Text.isWordChar c = false) :
    kinds rule ([','].intercalate (keys.map formatKey) ++ rest) = keyKinds keys ++ kinds rule rest := by
  fun_induction keyKinds keys with
  | case1 => rfl
  | case2 key =>
    rw [List.map_singleton, List.intercalate_singleton, kinds_key (h key (by simp)) hr]
    rfl
  | case3 key keys hne ih =>
    have hcomma : ∀ c ∈ (',' :: ([','].intercalate (keys.map formatKey) ++ rest)).head?, Text.isWordChar c = false := by
      rintro c hc
      cases hc
      decide
    rw [intercalate_keys hne, List.append_assoc, List.cons_append, kinds_key (h key (by simp)) hcomma, kinds_comma,
      ih fun k hk => h k (by simp [hk])]
    rfl

theorem break_not_mem_keys {keys : List Text} (h : ∀ key ∈ keys, Text.isQuotable key = true) :
    '\n' ∉ [','].intercalate (keys.map formatKey) := by
  fun_induction keyKinds keys with
  | case1 => exact List.not_mem_nil
  | case2 key =>
    rw [List.map_singleton, List.intercalate_singleton]
    exact break_not_mem_formatKey (h key (by simp))
  | case3 key keys hne ih =>
    rw [intercalate_keys hne, List.mem_append, List.mem_cons, not_or, not_or]
    exact ⟨break_not_mem_formatKey (h key (by simp)), by decide, ih fun k hk => h k (by simp [hk])⟩

theorem readKeys_keyKinds {keys : List Text} (hne : keys ≠ []) {ks : List Kind} (hks : ∀ k ∈ ks.head?, k ≠ .comma) :
    readKeys (unplaced (keyKinds keys ++ ks)) = (keys, unplaced ks) := by
  fun_induction keyKinds keys with
  | case1 => exact absurd rfl hne
  | case2 key =>
    rw [List.singleton_append, unplaced_cons, readKeys]
    · simp
    · rintro p us hus
      cases ks with
      | nil => cases hus
      | cons k ks =>
        injection hus with hk
        injection hk with hk
        exact hks k rfl hk
  | case3 key keys hmore ih =>
    rw [List.cons_append, List.cons_append, unplaced_cons, unplaced_cons, readKeys]
    simp only [key?_keyKind, ih hmore]

/-! ### Positions of notes -/

/-- The tokens of a position. -/
def NotePosition.kinds : NotePosition → List Kind
  | leftOf => [.leftOf, .word "of".toList]
  | rightOf => [.rightOf, .word "of".toList]
  | across => [.across]

private theorem blank_head (rest : Text) : ∀ c ∈ (' ' :: rest).head?, Text.isWordChar c = false := by
  rintro c hc
  cases hc
  decide

theorem kinds_words (position : NotePosition) (rest : Text) :
    kinds rule (position.words ++ ' ' :: rest) = position.kinds ++ kinds rule rest := by
  have hof : kinds rule ("of".toList ++ ' ' :: rest) = .word "of".toList :: kinds rule rest := by
    rw [kinds_word (by decide) (blank_head rest), kinds_space]
    rfl
  have hside : ∀ side : Text, Text.isWord side = true → kinds rule (side ++ ' ' :: ("of".toList ++ ' ' :: rest)) =
      Kind.ofWord side (Text.firstLine (' ' :: ("of".toList ++ ' ' :: rest))) ::
        .word "of".toList :: kinds rule rest := by
    intro side h
    rw [kinds_word h (blank_head _), kinds_space, hof]
  cases position with
  | leftOf => exact hside "left".toList (by decide)
  | rightOf => exact hside "right".toList (by decide)
  | across =>
    show kinds rule ("over".toList ++ ' ' :: rest) = .across :: kinds rule rest
    rw [kinds_word (by decide) (blank_head rest), kinds_space]
    rfl

theorem readPosition_kinds (position : NotePosition) (ks : List Kind) :
    readPosition (unplaced (position.kinds ++ ks)) = (position, unplaced ks) := by
  cases position <;> rfl

/-! ### Lines -/

/-- The blocks around a statement that it needs: a block to close, an alternative to go on with. -/
def Statement.Fits (st : Statement) (inside : List BlockKind) : Prop :=
  match st with
  | closing => inside ≠ []
  | branch _ => inside.head? = some .alt
  | _ => True

/-- A line that reads as the statement, in blocks that it fits and whatever line follows. -/
structure Reads (line : Text) (st : Statement) : Prop where
  one_line : '\n' ∉ line
  statements : ∀ inside rest, st.Fits inside → LineEnd rest →
    statements {} inside (unplaced (kinds rule line ++ rest)) = st :: statements {} (st.inside inside) (unplaced rest)

private theorem statements_read {inside : List BlockKind} {k : Kind} {ts us : List (Token Kind)} {st : Statement}
    (hk : k.isBreak = false) (h : readStatement {} inside ⟨k, {}⟩ ts = (st, us)) :
    statements {} inside (⟨k, {}⟩ :: ts) = st :: statements {} (st.inside inside) us := by
  rw [statements, if_neg (by simp [hk])]
  simp only [h]

private theorem break_not_mem_append {s t : Text} (hs : '\n' ∉ s) (ht : '\n' ∉ t) : '\n' ∉ s ++ t := by
  rw [List.mem_append]
  exact fun h => h.elim hs ht

private theorem break_not_mem_colonText {label : Text} (h : '\n' ∉ label) : '\n' ∉ colonText label := by
  unfold colonText
  split
  · exact List.not_mem_nil
  · exact break_not_mem_append (by decide) h

private theorem head?_colonText (label : Text) : ∀ c ∈ (colonText label).head?, Text.isWordChar c = false := by
  unfold colonText
  split
  · simp
  · rintro c hc
    cases hc
    decide

theorem reads_message {source target label : Text} (type : MessageType) (hs : Text.isQuotable source = true)
    (ht : Text.isQuotable target = true) (h : '\n' ∉ label) :
    Reads (formatKey source ++ type.symbol ++ formatKey target ++ colonText label)
      (.message source target type (freed label)) where
  one_line := by
    have hsymbol : '\n' ∉ type.symbol := by
      cases type <;> decide
    exact break_not_mem_append (break_not_mem_append (break_not_mem_append (break_not_mem_formatKey hs) hsymbol)
      (break_not_mem_formatKey ht)) (break_not_mem_colonText h)
  statements inside rest _ hrest := by
    have harrow : ∀ c ∈ (type.symbol ++ (formatKey target ++ colonText label)).head?, Text.isWordChar c = false := by
      cases type <;> (rintro c hc; cases hc; decide)
    have htarget : ∀ c ∈ (formatKey target ++ colonText label).head?, c ≠ '>' := by
      obtain ⟨c, t, hct, hc⟩ := head?_formatKey target
      rw [hct]
      rintro d hd
      cases hd
      exact hc
    rw [List.append_assoc, List.append_assoc, kinds_key hs harrow, kinds_arrow type htarget,
      kinds_key ht (head?_colonText label), kinds_colonText h]
    have hread : ∀ (k : Kind) (ts : List (Token Kind)), k = keyKind source →
        readStatement {} inside ⟨k, {}⟩ ts = readMessage source {} ts := by
      rintro k ts rfl
      unfold keyKind
      split <;> rfl
    apply statements_read (isBreak_keyKind source)
    rw [hread _ _ rfl]
    show readMessage source {} (⟨.arrow type, {}⟩ :: ⟨keyKind target, {}⟩ :: unplaced (colonKinds label ++ rest)) = _
    simp only [readMessage, key?_keyKind, readColonText_label h hrest]

theorem reads_note {keys : List Text} {text : Text} (position : NotePosition) (hne : keys ≠ [])
    (hk : ∀ key ∈ keys, Text.isQuotable key = true) (h : '\n' ∉ text) :
    Reads ("Note ".toList ++ position.words ++ ' ' :: [','].intercalate (keys.map formatKey) ++ colonText text)
      (.note position keys (freed text)) where
  one_line := by
    have hwords : '\n' ∉ position.words := by
      cases position <;> decide
    exact break_not_mem_append (break_not_mem_append (break_not_mem_append (by decide) hwords)
      (break_not_mem_space (break_not_mem_keys hk))) (break_not_mem_colonText h)
  statements inside rest _ hrest := by
    have hline : "Note ".toList ++ position.words ++ ' ' :: [','].intercalate (keys.map formatKey) ++ colonText text =
        "Note".toList ++ ' ' :: (position.words ++
          ' ' :: ([','].intercalate (keys.map formatKey) ++ colonText text)) := by
      simp
    have hcomma : ∀ k ∈ (colonKinds text ++ rest).head?, k ≠ .comma := by
      unfold colonKinds
      split
      · intro k hk
        rw [hrest k hk]
        decide
      · rintro k hk
        cases hk
        exact Kind.noConfusion
    rw [hline, kinds_word (by decide) (blank_head _), kinds_space, kinds_words, kinds_keys hk (head?_colonText text),
      kinds_colonText h]
    show statements {} inside (⟨.note "Note".toList, {}⟩ :: unplaced (_ ++ rest)) = _
    apply statements_read rfl
    show readNote {} _ = _
    rw [List.append_assoc, List.append_assoc]
    simp only [readNote, readPosition_kinds, readKeys_keyKinds hne hcomma, hne, if_false, readColonText_label h hrest]

theorem reads_opening {label : Text} (kind : BlockKind) (h : '\n' ∉ label) :
    Reads (keywordText kind.word label) (.opening kind (freed label) {}) where
  one_line := by
    have hword : Text.isWord kind.word = true := by
      cases kind <;> decide
    rw [keywordText_eq hword]
    exact break_not_mem_append (Text.break_not_mem_of_isWord hword) (break_not_mem_spaced h)
  statements inside rest _ hrest := by
    have hword : Text.isWord kind.word = true := by
      cases kind <;> decide
    have hkind : Kind.ofWord kind.word (spaced label) = .opening kind (spaced label) := by
      cases kind <;> rfl
    rw [kinds_keywordText hword h, hkind, List.cons_append, unplaced_cons]
    apply statements_read rfl
    simp only [readStatement, readText_spaced h hrest, startOf_unplaced]

theorem reads_branch {label : Text} (h : '\n' ∉ label) :
    Reads (keywordText (Kind.branch []).text label) (.branch (freed label)) where
  one_line := by
    rw [keywordText_eq (by decide)]
    exact break_not_mem_append (by decide) (break_not_mem_spaced h)
  statements inside rest hfits hrest := by
    have hkind : Kind.ofWord (Kind.branch []).text (spaced label) = .branch (spaced label) := rfl
    have hinside : inside.head? = some .alt := hfits
    rw [kinds_keywordText (by decide) h, hkind, List.cons_append, unplaced_cons]
    apply statements_read rfl
    simp only [readStatement, hinside, if_true, readText_spaced h hrest]

theorem reads_closing : Reads Kind.closing.text .closing where
  one_line := by decide
  statements inside rest hfits _ := by
    have hkinds : kinds rule Kind.closing.text = [.closing] := kinds_last_word (by decide)
    have hinside : inside ≠ [] := hfits
    rw [hkinds, List.singleton_append, unplaced_cons]
    apply statements_read rfl
    simp only [readStatement, hinside, if_false]

private theorem reads_mark {key keyword : Text} {mark : Text → Statement} {k : Kind}
    (hword : Text.isWord keyword = true) (hkind : ∀ behind, Kind.ofWord keyword behind = k) (hk : k.isBreak = false)
    (hmark : ∀ inside ts, readStatement {} inside ⟨k, {}⟩ ts = readMark k.text {} mark ts)
    (h : Text.isQuotable key = true) : Reads (keyword ++ ' ' :: formatKey key) (mark key) where
  one_line :=
    break_not_mem_append (Text.break_not_mem_of_isWord hword) (break_not_mem_space (break_not_mem_formatKey h))
  statements inside rest _ _ := by
    have hkey : kinds rule (formatKey key) = [keyKind key] := by
      have hend := kinds_key h (show ∀ c ∈ ([] : Text).head?, Text.isWordChar c = false by simp)
      rwa [List.append_nil, kinds_nil] at hend
    rw [kinds_word hword (blank_head _), hkind, kinds_space, hkey, List.cons_append, unplaced_cons]
    apply statements_read hk
    rw [hmark, List.singleton_append, unplaced_cons, readMark]
    simp only [key?_keyKind]

theorem reads_activate {key : Text} (h : Text.isQuotable key = true) :
    Reads (Kind.activate.text ++ ' ' :: formatKey key) (.activate key) :=
  reads_mark (by decide) (fun _ => rfl) rfl (fun _ _ => rfl) h

theorem reads_deactivate {key : Text} (h : Text.isQuotable key = true) :
    Reads (Kind.deactivate.text ++ ' ' :: formatKey key) (.deactivate key) :=
  reads_mark (by decide) (fun _ => rfl) rfl (fun _ _ => rfl) h

/-! ### Lines of participants -/

/-- What stands behind the key of a participant. -/
def displayText : Option Text → Text
  | none => []
  | some name => ' ' :: ("as".toList ++ ' ' :: name)

private theorem line_eq (p : Participant) :
    p.line = p.kind.word ++ ' ' :: (formatKey p.key ++ displayText p.display?) := by
  unfold Participant.line Participant.display?
  rcases p.shortName with _ | _ | ⟨c, r⟩
  · rw [List.append_assoc]
    rfl
  · rw [List.append_assoc]
    rfl
  · dsimp only
    rw [List.append_assoc]
    split <;> rfl

/-- The tokens of the name behind `as`. -/
private def displayKinds : Option Text → List Kind
  | none => []
  | some name => .display (' ' :: name) :: kinds rule name

private theorem kinds_displayText {display : Option Text} (h : ∀ name ∈ display, '\n' ∉ name) :
    kinds rule (displayText display) = displayKinds display := by
  cases display with
  | none => exact kinds_nil rule
  | some name =>
    unfold displayText displayKinds
    rw [kinds_space, kinds_word (by decide) (blank_head name), kinds_space,
      Text.firstLine_of_not_mem (break_not_mem_space (h name rfl))]
    rfl

private theorem readDisplay_displayKinds {display : Option Text} (h : ∀ name ∈ display, '\n' ∉ name)
    {rest : List Kind} (hr : LineEnd rest) :
    readDisplay (unplaced (displayKinds display ++ rest)) = (display.bind redisplay, unplaced rest) := by
  cases display with
  | none =>
    cases rest with
    | nil => rfl
    | cons k rest =>
      rw [hr k rfl]
      rfl
  | some name => exact readDisplay_unplaced (h name rfl) hr

/-- The line of a participant is read with the name that is read behind `as`. -/
theorem reads_participant {p : Participant} (hk : Text.isQuotable p.key = true)
    (h : ∀ name ∈ p.display?, '\n' ∉ name) :
    Reads p.line (.participant p.kind p.key (p.display?.bind redisplay)) where
  one_line := by
    have hword : '\n' ∉ p.kind.word := by
      cases p.kind <;> decide
    have hdisplay : '\n' ∉ displayText p.display? := by
      cases hd : p.display? with
      | none => exact List.not_mem_nil
      | some name =>
        exact break_not_mem_space (break_not_mem_append (by decide) (break_not_mem_space (h name hd)))
    rw [line_eq]
    exact break_not_mem_append hword
      (break_not_mem_space (break_not_mem_append (break_not_mem_formatKey hk) hdisplay))
  statements inside rest _ hrest := by
    have hword : Text.isWord p.kind.word = true := by
      cases p.kind <;> decide
    have hkind : ∀ behind, Kind.ofWord p.kind.word behind = .declare p.kind := by
      intro behind
      cases p.kind <;> rfl
    have hhead : ∀ c ∈ (displayText p.display?).head?, Text.isWordChar c = false := by
      cases p.display? with
      | none => simp [displayText]
      | some name => exact blank_head _
    rw [line_eq, kinds_word hword (blank_head _), hkind, kinds_space, kinds_key hk hhead, kinds_displayText h,
      List.cons_append, unplaced_cons]
    apply statements_read rfl
    rw [List.cons_append, unplaced_cons]
    simp only [readStatement, readDeclaration, key?_keyKind, readDisplay_displayKinds h hrest]

/-! ### All lines -/

/-- Statements that fit, each inside the blocks that the ones before it leave open. -/
def Fitting (inside : List BlockKind) : List Statement → Prop
  | [] => True
  | st :: sts => st.Fits inside ∧ Fitting (st.inside inside) sts

/-- Lines that read as statements which fit read as the list of them. -/
theorem statements_lines {α : Type} {l : List α} {line : α → Text} {st : α → Statement}
    (h : ∀ a ∈ l, Reads (line a) (st a)) {inside : List BlockKind} (hfit : Fitting inside (l.map st)) :
    statements {} inside (unplaced (l.flatMap fun a => .newline :: kinds rule (line a))) = l.map st := by
  induction l generalizing inside with
  | nil => rw [List.flatMap_nil, unplaced_nil, statements, List.map_nil]
  | cons a l ih =>
    have hend : LineEnd (l.flatMap fun a => .newline :: kinds rule (line a)) := by
      cases l with
      | nil => simp [LineEnd]
      | cons b l =>
        intro k hk
        cases hk
        rfl
    rw [List.flatMap_cons, List.cons_append, unplaced_cons, statements,
      if_pos (show Kind.newline.isBreak = true from rfl),
      (h a List.mem_cons_self).statements inside _ hfit.1 hend,
      ih (fun b hb => h b (List.mem_cons_of_mem a hb)) hfit.2, List.map_cons]

end DiagramText.Sequence

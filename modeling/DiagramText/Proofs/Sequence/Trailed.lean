import DiagramText.Proofs.Sequence.FreeText
import DiagramText.Proofs.Sequence.Places

/-!
# Tokens in front of the end of a line

Tokens are `Trailed` by others if these come behind them and the free text that can be read behind each of them remains
the same.  Where what follows ends the line, perhaps with a comment, a reader finds the same in the tokens with and
without it (`readStatement_trailed`), with one exception: a string that stands alone behind `as` is taken for the name
only if the line ends there.  With a comment behind it, it is free text, quotes and all (`readDeclaration_named`).
-/

namespace DiagramText.Sequence

/-! ### The text behind a token -/

namespace Kind

/-- The text that a token carries. -/
def behind : Kind → Text
  | colon behind | opening _ behind | branch behind | display behind => behind
  | _ => []

/-- The token with the text `s` behind it, if it carries any. -/
def carry (s : Text) : Kind → Kind
  | colon _ => colon s
  | opening block _ => opening block s
  | branch _ => branch s
  | display _ => display s
  | k => k

variable (s : Text) (k : Kind)

@[simp] theorem name_carry : (k.carry s).name = k.name := by
  cases k with
  | opening block _ => cases block <;> rfl
  | _ => rfl

@[simp] theorem text_carry : (k.carry s).text = k.text := by cases k <;> rfl

@[simp] theorem key?_carry : (k.carry s).key? = k.key? := by cases k <;> rfl

@[simp] theorem isBreak_carry : (k.carry s).isBreak = k.isBreak := by cases k <;> rfl

@[simp] theorem carry_behind : k.carry k.behind = k := by cases k <;> rfl

@[simp] theorem carry_carry (s' : Text) : (k.carry s').carry s = k.carry s := by cases k <;> rfl

theorem carry_eq_newline : k.carry s = newline ↔ k = newline := by cases k <;> simp [carry]

/-- A token carries any text or none. -/
theorem behind_carry : (∀ s, (k.carry s).behind = s) ∨ ∀ s, (k.carry s).behind = [] := by
  cases k <;> simp [carry, behind]

theorem Plain.carry {k : Kind} {rest : Text} (h : k.Plain rest) : k.carry (Text.firstLine rest) = k := by
  cases k with
  | colon behind => exact congrArg colon h.symm
  | opening block behind => exact congrArg (opening block) h.symm
  | branch behind => exact congrArg branch h.symm
  | display behind => exact congrArg display h.symm
  | _ => rfl

theorem carry_ofWord (w s' : Text) : (ofWord w s').carry s = ofWord w s := by
  have htokens : reservedTokens s = (reservedTokens s').map (carry s) := rfl
  unfold ofWord
  rw [htokens, List.find?_map]
  have htext : ((fun k : Kind => decide (k.text = w)) ∘ carry s) = fun k => decide (k.text = w) := by
    funext k
    simp
  rw [htext]
  cases (reservedTokens s').find? (·.text = w) <;> rfl

end Kind

/-! ### Tokens in front of others -/

/-- The second tokens are the first ones with `tail` behind them.  The free text behind a token is read as before. -/
inductive Trailed (tail : List Kind) : (ts us : List (Token Kind)) → Prop where
  | stop : Trailed tail [] (unplaced tail)
  | token {k : Kind} {s : Text} {ts us : List (Token Kind)}
    (htext : (readText (k.carry s).behind us).1 = (readText k.behind ts).1) (hrest : Trailed tail ts us) :
    Trailed tail (⟨k, {}⟩ :: ts) (⟨k.carry s, {}⟩ :: us)

/-- What readers leave of such tokens; the line of `tail` may have been skipped. -/
def Left (tail : List Kind) (ts us : List (Token Kind)) : Prop :=
  Trailed tail ts us ∨ ts = [] ∧ us = skipLine (unplaced tail)

/-- The tokens have no places. -/
private theorem Left.startOf {tail : List Kind} {ts us : List (Token Kind)} (h : Left tail ts us) :
    startOf {} ts = {} ∧ startOf {} us = {} := by
  rcases h with h | ⟨rfl, rfl⟩
  · cases h with
    | stop => exact ⟨rfl, startOf_unplaced tail⟩
    | token htext hrest => exact ⟨rfl, rfl⟩
  · refine ⟨rfl, ?_⟩
    rw [skipLine, skipTokens, unplaced, List.dropWhile_map]
    exact startOf_unplaced _

/-- The name to display; there is none if the text is empty. -/
def shown (name : Text) : Option Text := if name = [] then none else some name

theorem shown_inj {name name' : Text} : shown name = shown name' ↔ name = name' := by
  unfold shown
  by_cases h : name = [] <;> by_cases h' : name' = [] <;> simp_all [eq_comm]

/-! ### Readers in front of other tokens -/

/-- The line ends, perhaps with a comment. -/
def Closes (tail : List Kind) : Prop := LineEnd tail ∨ ∃ text, tail = [.comment text]

/-- There is nothing to read on the line. -/
private def Halts (us : List (Token Kind)) : Prop := us = [] ∨ ∃ k vs, k.isBreak = true ∧ us = ⟨k, {}⟩ :: vs

@[elab_as_elim]
private theorem Halts.elim {motive : List (Token Kind) → Prop} {us : List (Token Kind)} (h : Halts us)
    (nil : motive []) (newline : ∀ vs, motive (⟨.newline, {}⟩ :: vs))
    (comment : ∀ text vs, motive (⟨.comment text, {}⟩ :: vs)) : motive us := by
  obtain rfl | ⟨k, vs, hk, rfl⟩ := h
  · exact nil
  · cases k with
    | newline => exact newline vs
    | comment text => exact comment text vs
    | _ => cases hk

section

variable {tail : List Kind} {ts us : List (Token Kind)}

theorem skipLine_eq_of_lineEnd (h : LineEnd tail) : skipLine (unplaced tail) = unplaced tail := by
  cases tail with
  | nil => rfl
  | cons k tail =>
    rw [h k rfl]
    rfl

private theorem Closes.halts (h : Closes tail) : Halts (unplaced tail) := by
  rcases h with h | ⟨text, rfl⟩
  · cases tail with
    | nil => exact Or.inl rfl
    | cons k tail =>
      rw [h k rfl]
      exact Or.inr ⟨_, _, rfl, rfl⟩
  · exact Or.inr ⟨_, _, rfl, rfl⟩

/-- The next token is the same, unless the first tokens are at their end. -/
private theorem Trailed.heads (h : Trailed tail ts us) (htail : Closes tail) : ts = [] ∧ Halts us ∨
    ∃ k s ts' us', ts = ⟨k, {}⟩ :: ts' ∧ us = ⟨k.carry s, {}⟩ :: us' ∧
      (readText (k.carry s).behind us').1 = (readText k.behind ts').1 ∧ Trailed tail ts' us' := by
  cases h with
  | stop => exact Or.inl ⟨rfl, htail.halts⟩
  | token htext hrest => exact Or.inr ⟨_, _, _, _, rfl, rfl, htext, hrest⟩

private theorem skipLine_trailed (h : Trailed tail ts us) : Left tail (skipLine ts) (skipLine us) := by
  have hcons : ∀ {k : Kind} (ts : List (Token Kind)), k ≠ .newline → skipLine (⟨k, {}⟩ :: ts) = skipLine ts := by
    intro k ts hk
    simp [skipLine, skipTokens, hk]
  induction h with
  | stop => exact Or.inr ⟨rfl, rfl⟩
  | @token k s ts us htext hrest ih =>
    by_cases hk : k = .newline
    · subst hk
      exact Or.inl (.token htext hrest)
    · rw [hcons ts hk, hcons us (mt (Kind.carry_eq_newline s k).1 hk)]
      exact ih

private theorem readColonText_trailed (htail : Closes tail) (h : Trailed tail ts us) :
    (readColonText us).1 = (readColonText ts).1 ∧ Left tail (readColonText ts).2 (readColonText us).2 := by
  have hhalts : ∀ {us}, Halts us → readColonText us = ([], us) :=
    fun hus => hus.elim rfl (fun _ => rfl) fun _ _ => rfl
  obtain ⟨rfl, hus⟩ | ⟨k, s, ts', us', rfl, rfl, htext, hrest⟩ := h.heads htail
  · rw [hhalts hus]
    exact ⟨rfl, .inl h⟩
  · cases k with
    | colon b => exact ⟨htext, skipLine_trailed hrest⟩
    | _ => exact ⟨rfl, .inl h⟩

private theorem skipOf_trailed (htail : Closes tail) (h : Trailed tail ts us) :
    Trailed tail (readPosition.skipOf ts) (readPosition.skipOf us) := by
  have hother : ∀ {ts : List (Token Kind)}, (∀ p us, ts ≠ ⟨.word ['o', 'f'], p⟩ :: us) →
      readPosition.skipOf ts = ts := by
    intro ts hts
    rw [readPosition.skipOf]
    exact hts
  have hhalts : ∀ {us}, Halts us → readPosition.skipOf us = us :=
    fun hus => hus.elim rfl (fun _ => rfl) fun _ _ => rfl
  obtain ⟨rfl, hus⟩ | ⟨k, s, ts', us', rfl, rfl, -, hrest⟩ := h.heads htail
  · rw [hhalts hus]
    exact h
  · cases k with
    | word name =>
      by_cases hof : name = ['o', 'f']
      · subst hof
        exact hrest
      · rw [hother (by simp [hof]), hother (by simp [Kind.carry, hof])]
        exact h
    | _ => exact h

private theorem readPosition_trailed (htail : Closes tail) (h : Trailed tail ts us) :
    (readPosition us).1 = (readPosition ts).1 ∧ Trailed tail (readPosition ts).2 (readPosition us).2 := by
  have hhalts : ∀ {us}, Halts us → readPosition us = (.across, us) :=
    fun hus => hus.elim rfl (fun _ => rfl) fun _ _ => rfl
  obtain ⟨rfl, hus⟩ | ⟨k, s, ts', us', rfl, rfl, -, hrest⟩ := h.heads htail
  · rw [hhalts hus]
    exact ⟨rfl, h⟩
  · cases k with
    | leftOf => exact ⟨rfl, skipOf_trailed htail hrest⟩
    | rightOf => exact ⟨rfl, skipOf_trailed htail hrest⟩
    | across => exact ⟨rfl, hrest⟩
    | _ => exact ⟨rfl, h⟩

private theorem readKeys_trailed (htail : Closes tail) (h : Trailed tail ts us) :
    (readKeys us).1 = (readKeys ts).1 ∧ Trailed tail (readKeys ts).2 (readKeys us).2 := by
  have hnone : ∀ {ts us}, Trailed tail ts us → (∀ t ∈ ts.head?, t.kind.key? = none) →
      (readKeys us).1 = [] ∧ Trailed tail ts (readKeys us).2 := by
    intro ts us h hts
    have hus : ∀ t ∈ us.head?, t.kind.key? = none := by
      obtain ⟨rfl, hus⟩ | ⟨k, s, ts', us', rfl, rfl, -, -⟩ := h.heads htail
      · exact hus.elim (by simp) (by simp [Kind.key?]) (by simp [Kind.key?])
      · simpa using hts
    rw [readKeys_of_none hus]
    exact ⟨rfl, h⟩
  -- the cases are a name with a comma behind it, a last name, and no name
  fun_induction readKeys ts generalizing us with
  | case1 t p ts key hkey ih =>
    obtain ⟨hts, -⟩ | ⟨k, s, _, us', hts, rfl, -, hrest⟩ := h.heads htail
    · cases hts
    · cases hts
      obtain ⟨hts, -⟩ | ⟨k', s', _, us'', hts, rfl, -, hrest'⟩ := hrest.heads htail
      · cases hts
      · cases hts
        obtain ⟨hkeys, hbehind⟩ := ih hrest'
        have hread : readKeys (⟨k.carry s, {}⟩ :: ⟨Kind.comma.carry s', {}⟩ :: us'') =
            (key :: (readKeys us'').1, (readKeys us'').2) := readKeys_comma ((k.key?_carry s).trans hkey) us''
        rw [hread]
        exact ⟨congrArg (key :: ·) hkeys, hbehind⟩
  | case2 t p ts hkey => exact hnone h (by simpa using hkey)
  | case3 t ts hcomma key hkey =>
    obtain ⟨hts, -⟩ | ⟨k, s, _, us', hts, rfl, -, hrest⟩ := h.heads htail
    · cases hts
    · cases hts
      have hus : ∀ p vs, us' ≠ ⟨.comma, p⟩ :: vs := by
        rintro p vs rfl
        obtain ⟨-, hus⟩ | ⟨k', s', ts', us', rfl, hus, -, -⟩ := hrest.heads htail
        · obtain hus | ⟨k, vs, hk, hus⟩ := hus
          · cases hus
          · cases hus
            cases hk
        · cases k' with
          | comma => exact hcomma _ _ rfl
          | _ => cases hus
      have hread : readKeys (⟨k.carry s, {}⟩ :: us') = ([key], us') := readKeys_last ((k.key?_carry s).trans hkey) hus
      rw [hread]
      exact ⟨rfl, hrest⟩
  | case4 t ts hcomma hkey => exact hnone h (by simpa using hkey)
  | case5 => exact hnone h (by simp)

private theorem readMark_trailed (htail : Closes tail) (keyword : Text) (mark : Text → Statement)
    (h : Trailed tail ts us) :
    (readMark keyword {} mark us).1 = (readMark keyword {} mark ts).1 ∧
      Left tail (readMark keyword {} mark ts).2 (readMark keyword {} mark us).2 := by
  have hhalts : ∀ {us}, Halts us → readMark keyword {} mark us = (.faulty ⟨{}, .activationParticipant keyword⟩, us) :=
    fun hus => hus.elim rfl (fun _ => rfl) fun _ _ => rfl
  obtain ⟨rfl, hus⟩ | ⟨k, s, ts', us', rfl, rfl, -, hrest⟩ := h.heads htail
  · rw [hhalts hus]
    exact ⟨rfl, .inl h⟩
  · simp only [readMark, Kind.key?_carry]
    cases k.key? with
    | none => exact ⟨rfl, .inl h⟩
    | some key => exact ⟨rfl, .inl hrest⟩

private theorem readMessage_trailed (htail : Closes tail) (source : Text) (h : Trailed tail ts us) :
    (readMessage source {} us).1 = (readMessage source {} ts).1 ∧
      Left tail (readMessage source {} ts).2 (readMessage source {} us).2 := by
  have hhalts : ∀ {us}, Halts us → readMessage source {} us = (.noArrow source {}, skipLine us) :=
    fun hus => hus.elim rfl (fun _ => rfl) fun _ _ => rfl
  obtain ⟨rfl, hus⟩ | ⟨k, s, ts', us', rfl, rfl, -, hrest⟩ := h.heads htail
  · rw [hhalts hus]
    exact ⟨rfl, skipLine_trailed h⟩
  · cases k with
    | arrow type =>
      have hloose : ∀ {us}, Halts us →
          readMessage source {} (⟨.arrow type, {}⟩ :: us) = (.faulty ⟨{}, .messageTarget⟩, us) :=
        fun hus => hus.elim rfl (fun _ => rfl) fun _ _ => rfl
      have hcarry : (Kind.arrow type).carry s = .arrow type := rfl
      rw [hcarry]
      obtain ⟨rfl, hus⟩ | ⟨k, s', ts'', us'', rfl, rfl, -, hrest'⟩ := hrest.heads htail
      · rw [hloose hus]
        exact ⟨rfl, .inl hrest⟩
      · simp only [readMessage, Kind.key?_carry]
        cases k.key? with
        | none => exact ⟨rfl, .inl hrest⟩
        | some target =>
          obtain ⟨htext, hbehind⟩ := readColonText_trailed htail hrest'
          dsimp only
          rw [htext]
          exact ⟨rfl, hbehind⟩
    | _ => exact ⟨rfl, skipLine_trailed h⟩

private theorem readNote_trailed (htail : Closes tail) (h : Trailed tail ts us) :
    (readNote {} us).1 = (readNote {} ts).1 ∧ Left tail (readNote {} ts).2 (readNote {} us).2 := by
  obtain ⟨hposition, hrest⟩ := readPosition_trailed htail h
  obtain ⟨hkeys, hrest⟩ := readKeys_trailed htail hrest
  obtain ⟨htext, hbehind⟩ := readColonText_trailed htail hrest
  simp only [readNote, hposition, hkeys, htext]
  split
  · exact ⟨rfl, .inl hrest⟩
  · exact ⟨rfl, hbehind⟩

theorem readDisplay_string {b value : Text} {p q : Place} (h : breaks.Ends us) :
    readDisplay (⟨.display b, p⟩ :: ⟨.string value, q⟩ :: us) = (shown value, us) := h.elim rfl fun _ _ => rfl

/-- What is no string that ends the line is free text. -/
theorem readDisplay_free {b : Text} {p : Place}
    (h : ∀ value q vs, us = ⟨.string value, q⟩ :: vs → ¬ breaks.Ends vs) :
    readDisplay (⟨.display b, p⟩ :: us) = (shown (readText b us).1, (readText b us).2) := by
  rw [readDisplay]
  · rfl
  · rintro value q rfl
    exact h value q [] rfl (by simp [Breaks.Ends])
  · rintro value q r vs rfl
    exact h value q _ rfl (by simp [Breaks.Ends])

private theorem Trailed.ends (h : Trailed tail ts us) (htail : LineEnd tail) (hts : breaks.Ends ts) :
    breaks.Ends us := by
  have hends : breaks.Ends (unplaced tail) := by
    cases tail with
    | nil => simp [Breaks.Ends]
    | cons k tail =>
      rw [htail k rfl]
      simp [Breaks.Ends]
  cases h with
  | stop => exact hends
  | @token k s ts us htext hrest => simpa [Breaks.Ends, Kind.carry_eq_newline] using hts

private theorem Trailed.of_ends (h : Trailed tail ts us) (hus : breaks.Ends us) : breaks.Ends ts := by
  cases h with
  | @token k s ts us htext hrest => simpa [Breaks.Ends, Kind.carry_eq_newline] using hus
  | _ => simp [Breaks.Ends]

/-- Where no comment follows, or no string alone stands behind `as`, the name is the same. -/
private theorem readDisplay_trailed (htail : Closes tail) (h : Trailed tail ts us)
    (hname : LineEnd tail ∨ ∀ b value, ts.map Token.kind ≠ [.display b, .string value]) :
    (readDisplay us).1 = (readDisplay ts).1 ∧ Left tail (readDisplay ts).2 (readDisplay us).2 := by
  have hhalts : ∀ {us}, Halts us → readDisplay us = (none, us) :=
    fun hus => hus.elim rfl (fun _ => rfl) fun _ _ => rfl
  obtain ⟨rfl, hus⟩ | ⟨k, s, ts', us', rfl, rfl, htext, hrest⟩ := h.heads htail
  · rw [hhalts hus]
    exact ⟨rfl, .inl h⟩
  · cases k with
    | display b =>
      have hcarry : (Kind.display b).carry s = .display s := rfl
      have htext : (readText s us').1 = (readText b ts').1 := htext
      rw [hcarry]
      by_cases hstring : ∃ value vs, ts' = ⟨.string value, {}⟩ :: vs ∧ breaks.Ends vs
      · obtain ⟨value, vs, rfl, hvs⟩ := hstring
        cases hrest with
        | @token _ s' _ us'' _ hrest' =>
          have hends : breaks.Ends us'' := by
            rcases hname with hline | hname
            · exact hrest'.ends hline hvs
            · -- the string is not the last token, so what is next is a line break in both
              obtain ⟨rfl, -⟩ | ⟨k, s'', ts₃, us₃, rfl, rfl, -, -⟩ := hrest'.heads htail
              · exact absurd rfl (hname b value)
              · obtain rfl : k = .newline := hvs _ rfl
                simp [Breaks.Ends, Kind.carry]
          have hcarry : (Kind.string value).carry s' = .string value := rfl
          rw [hcarry, readDisplay_string hvs, readDisplay_string hends]
          exact ⟨rfl, .inl hrest'⟩
      · have hts : ∀ value p vs, ts' = ⟨.string value, p⟩ :: vs → ¬ breaks.Ends vs := by
          rintro value p vs rfl hvs
          cases hrest with
          | token => exact hstring ⟨value, vs, rfl, hvs⟩
        have hus : ∀ value p vs, us' = ⟨.string value, p⟩ :: vs → ¬ breaks.Ends vs := by
          rintro value p vs rfl hvs
          obtain ⟨-, hus⟩ | ⟨k, s', ts'', us'', rfl, hus, -, hrest'⟩ := hrest.heads htail
          · obtain hus | ⟨k, vs, hk, hus⟩ := hus
            · cases hus
            · cases hus
              cases hk
          · cases k with
            | string value' =>
              cases hus
              exact hts value {} ts'' rfl (hrest'.of_ends hvs)
            | _ => cases hus
        rw [readDisplay_free hts, readDisplay_free hus, htext]
        exact ⟨rfl, skipLine_trailed hrest⟩
    | _ => exact ⟨rfl, .inl h⟩

private theorem readDeclaration_trailed (htail : Closes tail) (kind : ParticipantKind) (h : Trailed tail ts us)
    (hname : LineEnd tail ∨ ∀ k b value, k.key? ≠ none → ts.map Token.kind ≠ [k, .display b, .string value]) :
    (readDeclaration {} kind us).1 = (readDeclaration {} kind ts).1 ∧
      Left tail (readDeclaration {} kind ts).2 (readDeclaration {} kind us).2 := by
  have hhalts : ∀ {us}, Halts us →
      readDeclaration {} kind us = (.faulty ⟨{}, .participantName kind.word⟩, us) :=
    fun hus => hus.elim rfl (fun _ => rfl) fun _ _ => rfl
  obtain ⟨rfl, hus⟩ | ⟨k, s, ts', us', rfl, rfl, -, hrest⟩ := h.heads htail
  · rw [hhalts hus]
    exact ⟨rfl, .inl h⟩
  · simp only [readDeclaration, Kind.key?_carry]
    cases hkey : k.key? with
    | none => exact ⟨rfl, .inl h⟩
    | some key =>
      have hname' : LineEnd tail ∨ ∀ b value, ts'.map Token.kind ≠ [.display b, .string value] := by
        refine hname.imp_right fun hname b value hts => hname k b value ?_ (congrArg (k :: ·) hts)
        simp [hkey]
      obtain ⟨hdisplay, hbehind⟩ := readDisplay_trailed htail hrest hname'
      dsimp only
      rw [hdisplay]
      exact ⟨rfl, hbehind⟩

theorem readStatement_trailed (htail : Closes tail) (inside : List BlockKind) {k : Kind} {s : Text}
    (htext : (readText (k.carry s).behind us).1 = (readText k.behind ts).1) (h : Trailed tail ts us)
    (hname : LineEnd tail ∨ ∀ kind k' b value, k'.key? ≠ none →
      k :: ts.map Token.kind ≠ [.declare kind, k', .display b, .string value]) :
    (readStatement {} inside ⟨k.carry s, {}⟩ us).1 = (readStatement {} inside ⟨k, {}⟩ ts).1 ∧
      Left tail (readStatement {} inside ⟨k, {}⟩ ts).2 (readStatement {} inside ⟨k.carry s, {}⟩ us).2 := by
  have hskip : (readStatement.skip (⟨k.carry s, {}⟩ : Token Kind) us).1 =
      (readStatement.skip (⟨k, {}⟩ : Token Kind) ts).1 ∧
        Left tail (readStatement.skip (⟨k, {}⟩ : Token Kind) ts).2
          (readStatement.skip (⟨k.carry s, {}⟩ : Token Kind) us).2 :=
    ⟨congrArg (Statement.skippedLine · {}) (k.name_carry s), skipLine_trailed h⟩
  cases k with
  | declare kind =>
    refine readDeclaration_trailed htail kind h (hname.imp_right fun hname k' b value hkey hts => ?_)
    exact hname kind k' b value hkey (congrArg (Kind.declare kind :: ·) hts)
  | note spelling => exact readNote_trailed htail h
  | opening block b =>
    have hrest := skipLine_trailed h
    obtain ⟨hts, hus⟩ := Left.startOf (.inl h)
    obtain ⟨hts', hus'⟩ := hrest.startOf
    refine ⟨?_, hrest⟩
    show Statement.opening block _ ⟨{}, startOf {} us, startOf {} (skipLine us)⟩ =
      .opening block _ ⟨{}, startOf {} ts, startOf {} (skipLine ts)⟩
    rw [hts, hus, hts', hus']
    exact congrArg (Statement.opening block · {}) htext
  | activate => exact readMark_trailed htail _ _ h
  | deactivate => exact readMark_trailed htail _ _ h
  | word name => exact readMessage_trailed htail name h
  | string value => exact readMessage_trailed htail value h
  | closing =>
    simp only [readStatement, Kind.carry]
    split
    · exact hskip
    · exact ⟨rfl, .inl h⟩
  | branch b =>
    simp only [readStatement, Kind.carry]
    split
    · exact ⟨congrArg Statement.branch htext, skipLine_trailed h⟩
    · exact hskip
  | _ => exact hskip

theorem readDeclaration_of_key {k : Kind} {key : Text} (kind : ParticipantKind) (hkey : k.key? = some key)
    (ts : List (Token Kind)) : readDeclaration {} kind (⟨k, {}⟩ :: ts) =
      (.participant kind key (readDisplay ts).1, (readDisplay ts).2) := by
  simp only [readDeclaration, hkey]

/-- With a comment behind it a string is free text, quotes and all. -/
theorem readDeclaration_named {k : Kind} {b value text key : Text} (kind : ParticipantKind)
    (hkey : k.key? = some key) (h : Trailed [.comment text] (unplaced [k, .display b, .string value]) us) :
    readDeclaration {} kind us = (.participant kind key (shown (Text.strip b)), []) := by
  cases h with
  | @token _ s _ us _ hrest =>
    cases hrest with
    | @token _ s' _ us htext hrest =>
      cases hrest with
      | @token _ s'' _ us _ hrest =>
        cases hrest with
        | stop =>
          have hfree : readDisplay (⟨.display s', {}⟩ :: ⟨.string value, {}⟩ :: unplaced [.comment text]) =
              (shown (Text.strip b), []) := by
            have hstrip : (readText b (unplaced [.string value])).1 = Text.strip b :=
              congrArg Text.strip (List.take_length (l := b))
            have htext : (readText s' (⟨.string value, {}⟩ :: unplaced [.comment text])).1 = Text.strip b :=
              htext.trans hstrip
            rw [readDisplay_free, htext]
            · rfl
            · rintro _ _ vs he
              cases he
              simp [Breaks.Ends]
          rw [readDeclaration_of_key kind ((k.key?_carry s).trans hkey)]
          exact congrArg (fun named : Option Text × List (Token Kind) =>
            (Statement.participant kind key named.1, named.2)) hfree

end

end DiagramText.Sequence

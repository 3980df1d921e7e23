import DiagramText.Proofs.Sequence.LineEnds

/-!
# Comments at the end of a line, as tokens

A comment behind a line changes the tokens of a text only by coming behind them if the line is open there: no string and
no other comment reaches to its end.  So the free text behind each token remains the same, but for a blank
(`trailed_kinds`).
-/

namespace DiagramText.Sequence

/-! ### What the rule finds in front of a gap -/

theorem rule_append_gap {c d : Char} {r : Text} (hd : Text.isGap d = true) (u : Text)
    (hcomment : c = '%' → r.head? = some '%' → '\n' ∈ r) (hstring : c = '"' → '"' ∈ r ∨ '\n' ∈ r) :
    rule c (r ++ d :: u) = ⟨(rule c r).kind.map
      (Kind.carry (Text.firstLine ((r ++ d :: u).drop (rule c r).more))), (rule c r).more⟩ := by
  have hne : ∀ {e : Char}, Text.isGap e = false → e ≠ d := by
    rintro e he rfl
    rw [hd] at he
    cases he
  have hhead : (r ++ d :: u).head? = some '%' ↔ r.head? = some '%' := by
    cases r with
    | nil => simpa using (hne (e := '%') (by decide)).symm
    | cons e r => rfl
  have harrow : MessageType.all.find? (fun type => type.symbol.isPrefixOf (c :: (r ++ d :: u))) =
      MessageType.all.find? fun type => type.symbol.isPrefixOf (c :: r) := by
    have hsymbol : ∀ type : MessageType, ∀ e ∈ type.symbol, Text.isGap e = false := by
      intro type
      cases type <;> exact Text.forall_of_all (by decide)
    congr 1
    funext type
    exact Text.isPrefixOf_append_of_not_mem (fun h => hne (hsymbol type d h) rfl) (c :: r) u
  have hchar := Text.isWordChar_eq_false_of_isBlank (Text.isBlank_of_isGap hd)
  have hword := Text.takeWhile_append_of_neg (p := Text.isWordChar) hchar r u
  unfold rule
  simp only [hhead, harrow, hword]
  split
  · rfl
  split
  · rfl
  split
  · rfl
  split
  · rename_i hc
    rw [Text.firstLine_append_of_mem (hcomment hc.1 hc.2)]
    rfl
  split
  · rfl
  split
  · rename_i hc
    rw [Text.quoted_append_of_mem (hstring hc)]
    rfl
  split
  · simp only [Option.map_some, Kind.carry_ofWord]
  · rfl

private theorem carry_of_rule {c : Char} {r : Text} {k : Kind} (h : (rule c r).kind = some k) :
    k.carry (Text.firstLine (r.drop (rule c r).more)) = k := by
  have hcase := ruleCase c r
  generalize rule c r = found at hcase h
  cases hcase with
  | plain hr hw hplain =>
    cases h
    rw [hr, List.drop_left]
    exact hplain.carry
  | nothing => cases h
  | _ =>
    cases h
    rfl

private theorem uncomment_gap {d : Char} (hgap : Text.isGap d = true) (r : Text) :
    uncomment (d :: r) = d :: uncomment r := by
  have hplain : ∀ e ∈ [d], e ≠ '"' ∧ e ≠ '%' := by
    rw [List.forall_mem_singleton]
    refine ⟨?_, ?_⟩ <;> rintro rfl <;> exact absurd hgap (by decide)
  exact uncomment_append hplain r

/-! ### A comment at the end of a line -/

/-- The names of the tokens of a text and their texts. -/
def listed (s : Text) : List (Text × Text) := (kinds rule s).map fun k => (k.name, k.text)

/-- A comment at the end of a line, with a blank before it. -/
def trailing (c : Text) : Text := " %% ".toList ++ c

private theorem kinds_comment {r : Text} (h : '\n' ∉ r) :
    kinds rule ('%' :: '%' :: r) = [.comment ('%' :: '%' :: r)] := by
  have hline : Text.firstLine ('%' :: r) = '%' :: r := Text.firstLine_of_not_mem (by simpa using h)
  have hrule : rule '%' ('%' :: r) = ⟨some (.comment ('%' :: '%' :: r)), r.length + 1⟩ := by
    have hrule : rule '%' ('%' :: r) = ⟨some (.comment ('%' :: Text.firstLine ('%' :: r))),
        (Text.firstLine ('%' :: r)).length⟩ := rfl
    rw [hrule, hline]
    rfl
  rw [kinds_cons rule (by decide), hrule]
  simp

private theorem kinds_quote (r : Text) :
    kinds rule ('"' :: r) = .string (Text.quoted r).1 :: kinds rule (r.drop (Text.quoted r).2) := by
  have hrule : rule '"' r = ⟨some (.string (Text.quoted r).1), (Text.quoted r).2⟩ := by
    have hcase := ruleCase '"' r
    generalize rule '"' r = found at hcase
    cases hcase with
    | string => rfl
    | plain hr hw hplain => exact absurd rfl (hw '"' List.mem_cons_self).1
    | nothing hquote => exact absurd rfl hquote
    | _ hc => exact absurd hc (by decide)
  rw [kinds_cons rule (by decide), hrule]
  rfl

private theorem kinds_cons_trailing (c : Text) {d : Char} {r : Text} (hgap : Text.isGap d = false)
    (hcomment : d = '%' → r.head? = some '%' → '\n' ∈ r) (hstring : d = '"' → '"' ∈ r ∨ '\n' ∈ r) :
    kinds rule (d :: (r ++ trailing c)) =
      ((rule d r).kind.map (Kind.carry (Text.firstLine (r.drop (rule d r).more ++ trailing c)))).toList ++
        kinds rule (r.drop (rule d r).more ++ trailing c) := by
  have hrule := rule_append_gap (d := ' ') (by decide) ("%% ".toList ++ c) hcomment hstring
  have hdrop : (r ++ trailing c).drop (rule d r).more = r.drop (rule d r).more ++ trailing c :=
    List.drop_append_of_le_length (rule_lineLocal.more_le d r)
  rw [kinds_cons rule hgap, ← hdrop]
  exact congrArg (fun f : Found Kind => f.kind.toList ++ kinds rule ((r ++ trailing c).drop f.more)) hrule

section

variable {c text : Text} (hc : '\n' ∉ c)
include hc

private theorem kinds_trailing : kinds rule (trailing c) = [.comment ("%% ".toList ++ c)] := by
  have hcomment := kinds_comment (r := ' ' :: c) (by simpa using hc)
  have hspace : trailing c = ' ' :: ("%% ".toList ++ c) := rfl
  rw [hspace, kinds_space]
  exact hcomment

/-- No other comment reaches to the end of the line. -/
private theorem break_mem_of_comment {r : Text}
    (h : listed ('%' :: '%' :: r ++ trailing c) = listed ('%' :: '%' :: r) ++ [("COMMENT".toList, text)]) :
    '\n' ∈ r := by
  by_contra hbreak
  have hbreak' : '\n' ∉ r ++ trailing c := by
    unfold trailing
    simpa [hbreak] using hc
  have hkinds := kinds_comment hbreak'
  rw [List.cons_append, List.cons_append, listed, listed, kinds_comment hbreak, hkinds] at h
  simpa using congrArg List.length h

omit hc in
/-- No string reaches to the end of the line. -/
private theorem mem_of_string {r : Text}
    (h : listed ('"' :: r ++ trailing c) = listed ('"' :: r) ++ [("COMMENT".toList, text)]) :
    '"' ∈ r ∨ '\n' ∈ r := by
  -- otherwise the comment would be in the string, and the string no longer the same
  by_contra hopen
  rw [not_or] at hopen
  have hall : ∀ d ∈ r, (d != '"' && d != '\n') = true := Text.forall_ne_bar_iff.2 hopen
  have hquoted : ∀ u : Text, (Text.quoted u).1 = u.takeWhile fun d => d != '"' && d != '\n' := fun _ => rfl
  have hvalue : (Text.quoted r).1 = r := by rw [hquoted, Text.takeWhile_exact hall]
  have hlonger : (Text.quoted (r ++ trailing c)).1 = r ++ (trailing c).takeWhile fun d => d != '"' && d != '\n' := by
    rw [hquoted, List.takeWhile_append_of_pos hall]
  rw [List.cons_append, listed, listed, kinds_quote, kinds_quote, List.map_cons, List.map_cons, List.cons_append] at h
  have hsame : (Text.quoted (r ++ trailing c)).1 = (Text.quoted r).1 := congrArg Prod.snd (List.cons.inj h).1
  rw [hvalue, hlonger, List.append_right_eq_self] at hsame
  cases hsame

private theorem freed_append {s : Text} (h : '\n' ∉ s → uncomment (s ++ trailing c) = s ++ [' ']) :
    freed (Text.firstLine (s ++ trailing c)) = freed (Text.firstLine s) := by
  by_cases hs : '\n' ∈ s
  · rw [Text.firstLine_append_of_mem hs]
  · have hline : '\n' ∉ s ++ trailing c := by
      unfold trailing
      simpa [hs] using hc
    have hspace : uncomment (s ++ [' ']) = s ++ [' '] := by
      rw [← h hs]
      exact uncommentFrom_uncommentFrom
    rw [Text.firstLine_of_not_mem hline, Text.firstLine_of_not_mem hs, freed, freed, h hs,
      Text.strip_append_blank (c := ' ') (by decide), uncomment,
      uncommentFrom_of_longer hspace (List.prefix_append s [' '])]

/-- Where a line is open, the free text behind a token is the same with the comment. -/
private theorem readText_trailing {d : Char} {r : Text} {k : Kind} (hk : (rule d r).kind = some k)
    (h : '\n' ∉ r.drop (rule d r).more →
      uncomment (r.drop (rule d r).more ++ trailing c) = r.drop (rule d r).more ++ [' ']) :
    (readText (k.carry (Text.firstLine (r.drop (rule d r).more ++ trailing c))).behind
        (unplaced (kinds rule (r.drop (rule d r).more ++ trailing c)))).1 =
      (readText k.behind (unplaced (kinds rule (r.drop (rule d r).more)))).1 := by
  have hcarry := carry_of_rule hk
  generalize r.drop (rule d r).more = rest at hcarry h ⊢
  rw [← hcarry, Kind.carry_carry]
  rcases k.behind_carry with hbehind | hbehind
  · rw [hbehind, hbehind, readText_firstLine (map_kind_unplaced _), readText_firstLine (map_kind_unplaced _),
      freed_append hc h]
  · simp [hbehind, readText]

/-- A step through an open line. -/
private theorem uncomment_cons_trailing {d : Char} {r : Text} (hbreak : '\n' ∉ d :: r)
    (hcomment : d = '%' → r.head? = some '%' → '\n' ∈ r) (hstring : d = '"' → '"' ∈ r ∨ '\n' ∈ r)
    (h : uncomment (r.drop (rule d r).more ++ trailing c) = r.drop (rule d r).more ++ [' ']) :
    uncomment (d :: (r ++ trailing c)) = d :: r ++ [' '] := by
  rw [List.mem_cons, not_or] at hbreak
  have hcase := ruleCase d r
  generalize rule d r = found at hcase h
  cases hcase with
  | newline hd => exact absurd hd.symm hbreak.1
  | comment hd hr => exact absurd (hcomment hd hr) hbreak.2
  | string hd =>
    subst hd
    have hline : '\n' ∉ r ++ trailing c := by
      unfold trailing
      simpa [hbreak.2] using hc
    have hlength := Text.quoted_length_le r
    rw [uncomment_string hline, Text.quoted_append_of_mem (hstring rfl), List.take_append_of_le_length hlength,
      List.drop_append_of_le_length hlength, h, ← List.append_assoc, List.cons_append, List.take_append_drop]
  | @plain w rest k hr hw hplain =>
    subst hr
    rw [List.drop_left] at h
    rw [List.append_assoc, ← List.cons_append, uncomment_append hw]
    exact (congrArg (d :: w ++ ·) h).trans (List.append_assoc (d :: w) rest [' ']).symm
  | nothing hquote hcomment =>
    -- a sign alone begins no comment, as a blank comes behind it
    have hhead : (r ++ trailing c).head? = some '%' → r.head? = some '%' := by
      cases r with
      | nil => exact fun h => absurd h (by simp [trailing])
      | cons e r => exact id
    rw [uncomment, uncommentFrom, if_neg fun hc => hcomment ⟨hc.2.1, hhead hc.2.2⟩, beq_false_of_ne hquote]
    exact congrArg (d :: ·) h

/-- In front of the comment a line is open: no string and no other comment reaches to its end. -/
theorem trailed_kinds {s : Text} (h : listed (s ++ trailing c) = listed s ++ [("COMMENT".toList, text)]) :
    Trailed [.comment ("%% ".toList ++ c)] (unplaced (kinds rule s)) (unplaced (kinds rule (s ++ trailing c))) ∧
      ('\n' ∉ s → uncomment (s ++ trailing c) = s ++ [' ']) := by
  fun_induction kinds rule s with
  | case1 =>
    rw [List.nil_append, kinds_trailing hc]
    exact ⟨.stop, fun _ => rfl⟩
  | case2 d r found ih =>
    rw [List.cons_append] at h ⊢
    cases hgap : Text.isGap d with
    | true =>
      have hfound : found = ⟨none, 0⟩ := by simp [found, Rule.skippingGaps, hgap]
      rw [hfound, List.drop_zero] at ih
      rw [listed, listed, kinds_gap rule hgap, kinds_gap rule hgap] at h
      obtain ⟨htrailed, hopen⟩ := ih h
      rw [hfound, kinds_gap rule hgap]
      refine ⟨htrailed, fun hbreak => ?_⟩
      rw [List.mem_cons, not_or] at hbreak
      rw [uncomment_gap hgap, hopen hbreak.2, List.cons_append]
    | false =>
      have hfound : found = rule d r := by simp [found, Rule.skippingGaps, hgap]
      have hcomment : d = '%' → r.head? = some '%' → '\n' ∈ r := by
        rintro rfl hhead
        obtain ⟨r, rfl⟩ := List.head?_eq_some_iff.1 hhead
        exact List.mem_cons_of_mem _ (break_mem_of_comment hc h)
      have hstring : d = '"' → '"' ∈ r ∨ '\n' ∈ r := by
        rintro rfl
        exact mem_of_string h
      have hkinds := kinds_cons_trailing c hgap hcomment hstring
      rw [hfound] at ih ⊢
      have hrest : listed (r.drop (rule d r).more ++ trailing c) =
          listed (r.drop (rule d r).more) ++ [("COMMENT".toList, text)] := by
        rw [listed, listed, hkinds, kinds_cons rule hgap] at h
        cases hk : (rule d r).kind with
        | none =>
          rw [hk] at h
          exact h
        | some k =>
          rw [hk] at h
          exact (List.cons.inj h).2
      obtain ⟨htrailed, hopen⟩ := ih hrest
      refine ⟨?_, fun hbreak => ?_⟩
      · rw [hkinds]
        cases hk : (rule d r).kind with
        | none => exact htrailed
        | some k => exact .token (readText_trailing hc hk hopen) htrailed
      · refine uncomment_cons_trailing hc hbreak hcomment hstring (hopen fun hmem => hbreak ?_)
        exact List.mem_cons_of_mem d (List.mem_of_mem_drop hmem)

end

end DiagramText.Sequence

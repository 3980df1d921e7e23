import DiagramText.Diagram
import DiagramText.Proofs.Er.Lexing
import DiagramText.Proofs.Er.Parsed
import DiagramText.Proofs.Flowchart.Lexing
import DiagramText.Proofs.Flowchart.Places
import DiagramText.Proofs.Sequence.Lexing
import DiagramText.Proofs.Sequence.Places
import Mathlib.Logic.Relation

/-!
# Edits of the layout

The blanks in front of a line, and lines that are empty or hold a comment, are the layout of a text.  An edit of the
layout leaves the tokens as they are but for such lines, so that they are squeezed to the same
(`squeeze_kinds_of_edit`); and all that a dialect reads depends on the squeezed tokens.  However a text is laid out, it
has the same diagram, or the same faults in the same order (`Dialect.outcome_of_edits`).
-/

namespace DiagramText

/-! ### Layouts of a text -/

namespace Text

/-- A line of spaces and tabs, perhaps with a comment behind them. -/
def IsIdle (l : Text) : Prop :=
  ∃ gap rest, l = gap ++ rest ∧ (∀ c ∈ gap, isSpace c = true) ∧ (rest = [] ∨ "%%".toList <+: rest)

/-- The second text is the first after one edit of its layout. -/
inductive Edit (s s' : Text) : Prop where
  /-- A line is indented in another way. -/
  | indent (before after : List Text) (gap gap' l : Text) (hgap : ∀ c ∈ gap, isSpace c = true)
    (hgap' : ∀ c ∈ gap', isSpace c = true) (h : lines s = before ++ (gap ++ l) :: after)
    (h' : lines s' = before ++ (gap' ++ l) :: after)
  /-- An idle line is inserted between two lines, in front of the first or behind the last. -/
  | insert (before after : List Text) (l : Text) (hl : IsIdle l) (h : lines s = before ++ after)
    (h' : lines s' = before ++ l :: after)

end Text

section

variable {κ : Type} {br : Breaks κ} {rule : Rule κ}

/-- The breaks of a dialect are what its rule finds at a line break and at a comment, which goes on to the end of the
line. -/
structure Breaks.Fits (br : Breaks κ) (rule : Rule κ) : Prop where
  lineLocal : LineLocal rule br.newline
  comment : ∀ r, '\n' ∉ r → ∃ k, br.isBreak k = true ∧ rule '%' ('%' :: r) = ⟨some k, r.length + 1⟩

theorem Breaks.Fits.isBreak_of_idle (hbr : br.Fits rule) {l : Text} (h : Text.IsIdle l) (hl : '\n' ∉ l) :
    ∀ k ∈ kinds rule l, br.isBreak k = true := by
  obtain ⟨gap, rest, rfl, hgap, hrest⟩ := h
  rw [kinds_gaps rule fun c hc => by simp [Text.isGap, hgap c hc]]
  rcases hrest with rfl | ⟨r, rfl⟩
  · simp
  · have hr : '\n' ∉ r := fun hmem => hl (by simp [hmem])
    obtain ⟨k, hk, hrule⟩ := hbr.comment r hr
    have hkinds : kinds rule ("%%".toList ++ r) = [k] := by
      have hfound : kinds rule ('%' :: ('%' :: r ++ [])) = k :: kinds rule [] :=
        kinds_found (by decide) (by rw [List.append_nil]; exact hrule)
      rw [List.append_nil, kinds_nil] at hfound
      exact hfound
    rw [hkinds]
    simpa using hk

/-- Blanks in front of a line leave its tokens as they are. -/
private theorem kinds_indent_line (h : LineLocal rule br.newline) {before after : List Text} {gap l : Text}
    (hlines : ∀ x ∈ before ++ (gap ++ l) :: after, '\n' ∉ x) (hgap : ∀ c ∈ gap, Text.isSpace c = true) :
    kinds rule (Text.unlines (before ++ (gap ++ l) :: after)) = kinds rule (Text.unlines (before ++ l :: after)) := by
  have hlines' : ∀ x ∈ before ++ l :: after, '\n' ∉ x := by
    intro x hx
    rcases List.mem_append.1 hx with hx | hx
    · exact hlines x (List.mem_append_left _ hx)
    · rcases List.mem_cons.1 hx with rfl | hx
      · exact fun hmem => hlines (gap ++ x) (by simp) (List.mem_append_right gap hmem)
      · exact hlines x (by simp [hx])
  have hline : kinds rule (gap ++ l) = kinds rule l := kinds_gaps rule (fun c hc => by simp [Text.isGap, hgap c hc]) l
  cases before with
  | nil =>
    rw [List.nil_append, List.nil_append, h.kinds_unlines hlines, h.kinds_unlines hlines', hline]
  | cons m ls =>
    rw [List.cons_append] at hlines hlines'
    rw [List.cons_append, List.cons_append, h.kinds_unlines hlines, h.kinds_unlines hlines', List.flatMap_append,
      List.flatMap_append, List.flatMap_cons, List.flatMap_cons, hline]

variable [DecidableEq κ]

theorem squeeze_kinds_of_edit (hbr : br.Fits rule) {s s' : Text} (h : Text.Edit s s') :
    br.squeeze true (kinds rule s') = br.squeeze true (kinds rule s) := by
  have hlines : ∀ l ∈ Text.lines s, '\n' ∉ l := fun l => Text.break_not_mem_of_mem_lines
  have hlines' : ∀ l ∈ Text.lines s', '\n' ∉ l := fun l => Text.break_not_mem_of_mem_lines
  rw [← Text.unlines_lines s, ← Text.unlines_lines s']
  cases h with
  | indent before after gap gap' l hgap hgap' h h' =>
    rw [h] at hlines ⊢
    rw [h'] at hlines' ⊢
    rw [kinds_indent_line hbr.lineLocal hlines hgap, kinds_indent_line hbr.lineLocal hlines' hgap']
  | insert before after l hl h h' =>
    have hne : before ++ after ≠ [] := h ▸ Text.lines_ne_nil s
    rw [h'] at hlines' ⊢
    rw [h]
    exact squeeze_kinds_insert hbr.lineLocal hlines' hne (hbr.isBreak_of_idle hl (hlines' l (by simp)))

theorem squeeze_kinds_of_edits (hbr : br.Fits rule) {s s' : Text} (h : Relation.ReflTransGen Text.Edit s s') :
    br.squeeze true (kinds rule s') = br.squeeze true (kinds rule s) := by
  induction h with
  | refl => rfl
  | tail _ hedit ih => rw [squeeze_kinds_of_edit hbr hedit, ih]

end

/-! ### The dialects -/

namespace Er

theorem breaks_fits : breaks.Fits rule where
  lineLocal := rule_lineLocal
  comment r hr := ⟨.comment ('%' :: '%' :: r), rfl, by simp [rule, Text.firstLine_of_not_mem, hr]⟩

/-- What is read depends on the squeezed tokens only. -/
theorem outcome_of_squeeze {s s' : Text}
    (h : breaks.squeeze true (kinds rule s') = breaks.squeeze true (kinds rule s)) :
    (read s').outcome.mapError (List.map ParseError.fault) = (read s).outcome.mapError (List.map ParseError.fault) := by
  refine mapError_congr (fun _ => rfl) (outcome_congr (f := fun _ => {}) ?_ rfl)
  rw [← document_relaid (relaid_squeeze breaks _ true), ← document_relaid (relaid_squeeze breaks _ true),
    map_kind_tokenize, map_kind_tokenize, h]

end Er

namespace Flowchart

theorem breaks_fits : breaks.Fits rule where
  lineLocal := rule_lineLocal
  comment r hr := ⟨.comment ('%' :: '%' :: r), rfl, by simp [rule, Text.firstLine_of_not_mem, hr]⟩

/-- What is read depends on the squeezed tokens only. -/
theorem outcome_of_squeeze (stack : Stack) {s s' : Text}
    (h : breaks.squeeze true (kinds rule s') = breaks.squeeze true (kinds rule s)) :
    (read stack s').outcome.mapError (List.map ParseError.fault) =
      (read stack s).outcome.mapError (List.map ParseError.fault) := by
  have hdocument : ∀ s, ((document (tokenize rule s)).1,
      (document (tokenize rule s)).2.map (Statement.move fun _ => {})) =
        document ⟨unplaced (breaks.squeeze true (kinds rule s)), {}⟩ := by
    intro s
    have hrelaid := document_relaid (tokenize rule s).finish (relaid_squeeze breaks (tokenize rule s).tokens true)
    rw [map_kind_tokenize] at hrelaid
    exact hrelaid.symm
  have hsame := (hdocument s').trans ((congrArg (fun ks => document ⟨unplaced ks, {}⟩) h).trans (hdocument s).symm)
  obtain ⟨hdirection, hstatements⟩ := Prod.mk.inj hsame
  exact mapError_congr (fun _ => rfl) (outcome_congr stack hdirection hstatements)

end Flowchart

namespace Sequence

theorem breaks_fits : breaks.Fits rule where
  lineLocal := rule_lineLocal
  comment r hr := ⟨.comment ('%' :: '%' :: r), rfl, by simp [rule, Text.firstLine_of_not_mem, hr]⟩

/-- What is read depends on the squeezed tokens only. -/
theorem outcome_of_squeeze (stack : Stack) {s s' : Text}
    (h : breaks.squeeze true (kinds rule s') = breaks.squeeze true (kinds rule s)) :
    (read stack s').outcome.mapError (List.map ParseError.fault) =
      (read stack s).outcome.mapError (List.map ParseError.fault) := by
  have hdocument : ∀ s, (document (tokenize rule s)).map (Statement.move fun _ => {}) =
      document ⟨unplaced (breaks.squeeze true (kinds rule s)), {}⟩ := by
    intro s
    have hrelaid := document_relaid (tokenize rule s).finish (relaid_squeeze breaks (tokenize rule s).tokens true)
    rw [map_kind_tokenize] at hrelaid
    exact hrelaid.symm
  refine mapError_congr (fun _ => rfl) (outcome_congr stack (f := fun _ => {}) ?_)
  rw [hdocument, hdocument, h]

end Sequence

/-- A text that is laid out in another way has the same diagram, or it has the same faults in the same order. -/
theorem Dialect.outcome_of_edits (dialect : Dialect) (stack : Stack) {s s' : Text}
    (h : Relation.ReflTransGen Text.Edit s s') :
    (dialect.read stack s').outcome.mapError (List.map ParseError.fault) =
      (dialect.read stack s).outcome.mapError (List.map ParseError.fault) := by
  cases dialect with
  | er =>
    have hsame := Er.outcome_of_squeeze (squeeze_kinds_of_edits Er.breaks_fits h)
    exact Reading.mapError_map_congr Diagram.er hsame
  | flowchart =>
    have hsame := Flowchart.outcome_of_squeeze stack (squeeze_kinds_of_edits Flowchart.breaks_fits h)
    exact Reading.mapError_map_congr Diagram.flowchart hsame
  | sequence =>
    have hsame := Sequence.outcome_of_squeeze stack (squeeze_kinds_of_edits Sequence.breaks_fits h)
    exact Reading.mapError_map_congr Diagram.sequence hsame

/-- A talk in which somebody is left without a name, and the same with a title, an indented line and an empty last
line. -/
def talk : List Text := ["A->>B: a: b %% c".toList, "participant".toList, "activate".toList]

def talkLaidOut : List Text :=
  ["\t%% talk".toList, "  A->>B: a: b %% c".toList, "participant".toList, "activate".toList, " ".toList]

theorem outcome_of_edits_talk : Relation.ReflTransGen Text.Edit (Text.unlines talk) (Text.unlines talkLaidOut) ∧
    (Dialect.sequence.read {} (Text.unlines talkLaidOut)).outcome.mapError (List.map ParseError.fault) =
      (Dialect.sequence.read {} (Text.unlines talk)).outcome.mapError (List.map ParseError.fault) := by
  have hlines : ∀ ls ∈ [talk, "\t%% talk".toList :: talk, talkLaidOut.dropLast, talkLaidOut],
      Text.lines (Text.unlines ls) = ls := by
    intro ls hls
    exact List.splitOn_intercalate '\n' (by revert ls; decide +kernel) (by revert ls; decide +kernel)
  have hblank : ∀ gap ∈ [[], [' '], [' ', ' '], ['\t']], ∀ c ∈ gap, Text.isSpace c = true := by simp [Text.isSpace]
  have htitle : Text.Edit (Text.unlines talk) (Text.unlines ("\t%% talk".toList :: talk)) :=
    .insert [] talk "\t%% talk".toList
      ⟨"\t".toList, "%% talk".toList, rfl, hblank _ (by simp), Or.inr ⟨" talk".toList, rfl⟩⟩
      (hlines _ (by simp)) (hlines _ (by simp))
  have hindent : Text.Edit (Text.unlines ("\t%% talk".toList :: talk)) (Text.unlines talkLaidOut.dropLast) :=
    .indent ["\t%% talk".toList] talk.tail [] "  ".toList "A->>B: a: b %% c".toList (hblank _ (by simp))
      (hblank _ (by simp)) (hlines _ (by simp)) (hlines _ (by simp))
  have hlast : Text.Edit (Text.unlines talkLaidOut.dropLast) (Text.unlines talkLaidOut) :=
    .insert talkLaidOut.dropLast [] " ".toList ⟨" ".toList, [], rfl, hblank _ (by simp), Or.inl rfl⟩
      (hlines _ (by simp)) (hlines _ (by simp))
  have hedits := ((Relation.ReflTransGen.single htitle).tail hindent).tail hlast
  exact ⟨hedits, Dialect.sequence.outcome_of_edits {} hedits⟩

end DiagramText

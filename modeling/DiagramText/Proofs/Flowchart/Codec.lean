import DiagramText.Proofs.Flowchart.Links
import DiagramText.Proofs.Flowchart.Shapes

/-!
# Shapes and links as codes

What is written of a shape or of a link is read back at the head of a longer text.  Of a shape all labels without
quotes and line breaks are read back, whatever follows the closing bracket (`readShape_written`).  Of a link it is the
label that decides, once no pipe follows (`readLink_written_iff`).
-/

namespace DiagramText.Flowchart

/-! ### Shapes -/

/-- Behind a label without quotes and its closing bracket anything may follow: the shape and the label are read back,
and what is taken up ends with the closing bracket. -/
theorem readShape_written (sh : Shape) {label : Text} (hq : '"' ∉ label) (hb : '\n' ∉ label) (r : Text) :
    readShape (sh.opener ++ formatLabel label ++ sh.closer ++ r) =
      some ⟨sh, label, (sh.opener ++ formatLabel label ++ sh.closer).length⟩ := by
  show readShape (sh.wrap label ++ r) = some ⟨sh, label, (sh.wrap label).length⟩
  rcases formatLabel_cases hq with hformat | ⟨hstrip, hbracket, hformat⟩
  · exact readShape_quoted sh hq hb hformat r
  · exact readShape_bare sh hq hb hstrip hbracket hformat r

/-- A label that holds the closing bracket of a shape with the same opening bracket, and an empty label, behind which
the line goes on with more brackets. -/
theorem readShape_written_brackets :
    readShape "[/\"a/]\"\\]/]\" --> \"/]".toList = some ⟨.trapezoid, "a/]".toList, 9⟩ ∧
    readShape "[//]]\n[/\\]".toList = some ⟨.parallelogram, [], 4⟩ :=
  ⟨readShape_written .trapezoid (by decide : '"' ∉ "a/]".toList) (by decide) "/]\" --> \"/]".toList,
    readShape_written .parallelogram (by decide : '"' ∉ ([] : Text)) (by decide) "]\n[/\\]".toList⟩

/-! ### Links -/

/-- A link is as a text keeps it unless it has an empty label. -/
theorem Link.normal_eq_iff {l : Link} : l.normal = l ↔ ∀ label ∈ l.label, label ≠ [] := by
  obtain ⟨type, label⟩ := l
  cases label with
  | none => simp [Link.normal]
  | some label => simp [Link.normal, Option.filter_some]

/-- A link is read back, with nothing of the text behind it, if and only if it has no label, or one that is not empty,
has no outer blanks and no line break, and where it holds a pipe fits into the inner form of the type.  Behind the link
come a space and a character that is no further space, tab or pipe, such as the letter or underscore of a name. -/
theorem readLink_written_iff (l : Link) {c : Char} (hc : Text.isSpace c = false) (hp : c ≠ '|') (r : Text) :
    readLink (l.format ++ ' ' :: c :: r) = some ⟨l, l.format.length⟩ ↔
      ∀ label ∈ l.label, label ≠ [] ∧ label = Text.strip label ∧ '\n' ∉ label ∧
        ('|' ∈ label → ∃ form ∈ l.type.inline?, form.bar ∉ label) := by
  constructor
  · intro h label hlabel
    obtain ⟨hwritable, hnormal⟩ := writable_of_readLink h
    have hne : label ≠ [] := Link.normal_eq_iff.1 hnormal label hlabel
    exact ⟨hne, hwritable label hlabel hne⟩
  · intro h
    have hwritable : l.Writable := fun label hlabel _ => (h label hlabel).2
    have hnormal : l.normal = l := Link.normal_eq_iff.2 fun label hlabel => (h label hlabel).1
    have hnext : ∀ d ∈ (c :: r).head?, Text.isSpace d = false ∧ d ≠ '|' := by
      rintro d ⟨⟩
      exact ⟨hc, hp⟩
    rw [readLink_format hwritable hnext, hnormal]

/-- A label that looks like another link with a label between pipes. -/
theorem readLink_written_pipes :
    readLink "-. a -->|b| c .-> B|d|".toList = some ⟨⟨.dottedArrow, some "a -->|b| c".toList⟩, 17⟩ := by
  refine (readLink_written_iff ⟨.dottedArrow, some "a -->|b| c".toList⟩ (by decide : Text.isSpace 'B' = false)
    (by decide) "|d|".toList).2 ?_
  rintro label ⟨⟩
  exact ⟨by decide, by decide, by decide, fun _ => ⟨_, rfl, by decide⟩⟩

end DiagramText.Flowchart

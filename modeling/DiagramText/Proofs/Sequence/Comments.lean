import DiagramText.Proofs.Sequence.Declarations
import DiagramText.Proofs.Sequence.Trailing

/-!
# Comments at the end of a line

A comment can be put behind a line of a text whose tokens remain as they are.  The text can be read then if it could be
read before, and what it says is the same, but for a participant whose name is a string at the end of that line: the
comment makes it free text, with its quotes.  So the diagram is the same exactly if there is no such participant or
another line declares it again (`read_comment_iff`).
-/

namespace DiagramText.Sequence

/-! ### What the text says -/

/-- The tokens of a text and of what follows on the next line. -/
private theorem kinds_append_back {back : Text} (h : back = [] ∨ ∃ r, back = '\n' :: r) (s : Text) :
    kinds rule (s ++ back) = kinds rule s ++ kinds rule back ∧ LineEnd (kinds rule back) := by
  rcases h with rfl | ⟨r, rfl⟩
  · rw [List.append_nil, kinds_nil, List.append_nil]
    exact ⟨rfl, by simp [LineEnd]⟩
  · have hbreak : kinds rule ('\n' :: r) = .newline :: kinds rule r := by
      rw [kinds_cons rule (by decide), rule_lineLocal.at_break]
      rfl
    rw [rule_lineLocal.kinds_append_break, hbreak]
    exact ⟨rfl, by simp [LineEnd]⟩

private theorem cut_unplaced (s : Text) : Cut (unplaced (kinds rule s)) := ⟨s, map_kind_unplaced _⟩

/-- What a text says on its own it says whatever the next line is. -/
private theorem said_append {back : Text} (h : back = [] ∨ ∃ r, back = '\n' :: r) (s : Text) :
    said (s ++ back) = said s ++ later (unplaced (kinds rule s)) (kinds rule back) := by
  obtain ⟨hkinds, hend⟩ := kinds_append_back h s
  have htrailed := trailed_append hend (kinds rule s)
  rw [said, hkinds]
  exact ((document_trailed (Or.inl hend) htrailed (cut_unplaced s)).resolve_right fun h => h.1 hend).1

/-- With a comment behind it, a text says the same or has one participant `Renamed`. -/
private theorem said_trailing {c s text : Text} (hc : '\n' ∉ c)
    (h : listed (s ++ trailing c) = listed s ++ [("COMMENT".toList, text)]) :
    (said (s ++ trailing c) = said s ∧ ∀ key, ¬ EndsInName (kinds rule s) (said s) key) ∨
      Renamed (kinds rule s) (said s) (said (s ++ trailing c)) := by
  have hline : ¬ LineEnd [.comment ("%% ".toList ++ c)] := fun h => by cases h _ rfl
  have htrailed := (trailed_kinds hc h).1
  have hsaid := document_trailed (Or.inr ⟨_, rfl⟩) htrailed (cut_unplaced s)
  rw [map_kind_unplaced] at hsaid
  refine hsaid.imp (fun ⟨hsame, hnone⟩ => ⟨?_, hnone.resolve_left hline⟩) And.right
  rwa [later_comment, List.append_nil] at hsame

private theorem later_trailing {c s text : Text} (hc : '\n' ∉ c)
    (h : listed (s ++ trailing c) = listed s ++ [("COMMENT".toList, text)]) (tail : List Kind) :
    later (unplaced (kinds rule (s ++ trailing c))) tail = later (unplaced (kinds rule s)) tail := by
  refine later_eq (trailed_kinds hc h).1 ?_ tail
  rw [map_kind_unplaced]
  exact (said_trailing hc h).imp_left And.left

section

variable {stack : Stack} {front back c text : Text} (hc : '\n' ∉ c) (hback : back = [] ∨ ∃ r, back = '\n' :: r)
  (h : listed (front ++ trailing c ++ back) = listed front ++ ("COMMENT".toList, text) :: listed back)
include hc hback h

/-- With a comment behind a line, the text says the same or has one participant `Renamed`. -/
private theorem said_comment : ∃ rest, said (front ++ back) = said front ++ rest ∧
    (said (front ++ trailing c ++ back) = said (front ++ back) ∧
        (∀ key, ¬ EndsInName (kinds rule front) (said front) key) ∨
      ∃ sts, Renamed (kinds rule front) (said front) sts ∧ said (front ++ trailing c ++ back) = sts ++ rest) := by
  have hfront : listed (front ++ trailing c) = listed front ++ [("COMMENT".toList, text)] := by
    have hlisted := (kinds_append_back hback (front ++ trailing c)).1
    rw [listed, hlisted, List.map_append, ← List.singleton_append, ← List.append_assoc] at h
    exact List.append_cancel_right h
  have hrest := said_append hback (front ++ trailing c)
  rw [later_trailing hc hfront] at hrest
  refine ⟨_, said_append hback front, ?_⟩
  obtain ⟨hsame, hnone⟩ | hrenamed := said_trailing hc hfront
  · refine Or.inl ⟨?_, hnone⟩
    rw [hrest, hsame, said_append hback front]
  · exact Or.inr ⟨_, hrenamed, hrest⟩

/-- A comment behind a line does not matter to whether a text can be read.  The diagram is the same, too, unless the
line ends with a participant whose name is a string, and no later line declares that participant again. -/
theorem read_comment_iff :
    ((∃ d, (read stack (front ++ trailing c ++ back)).outcome = .ok d) ↔
      ∃ d, (read stack (front ++ back)).outcome = .ok d) ∧
    ∀ d, (read stack (front ++ back)).outcome = .ok d →
      ((read stack (front ++ trailing c ++ back)).outcome = .ok d ↔
        ∀ key, EndsInName (kinds rule front) (said front) key →
          ∃ st ∈ (said (front ++ back)).drop (said front).length, st.Declares key) := by
  obtain ⟨rest, hsaid, ⟨hsame, hnone⟩ | ⟨sts, hrenamed, hcomment⟩⟩ := said_comment hc hback h
  · simp only [read_eq_ok_iff, hsame, true_and, iff_self]
    exact fun d hd => iff_of_true hd fun key hends => absurd hends (hnone key)
  · obtain ⟨before, kind, key, b, value, hnamed, hfront, rfl⟩ := hrenamed
    have herror : ∀ name, (∀ st ∈ before ++ .participant kind key name :: rest, st.error? = none) ↔
        ∀ st ∈ before ++ rest, st.error? = none := by
      intro name
      rw [List.forall_mem_append, List.forall_mem_append, List.forall_mem_cons]
      exact and_congr_right fun _ => and_iff_right rfl
    have hdeep : ∀ name, Depth.deepest Statement.turn 0 (before ++ .participant kind key name :: rest) =
        Depth.deepest Statement.turn 0 (before ++ rest) := by
      intro name
      rw [Depth.deepest_append, Depth.deepest_append]
      exact congrArg (max _) (Nat.zero_max _)
    have hends : ∀ {key'}, EndsInName (kinds rule front) (said front) key' ↔ key' = key := by
      intro key'
      rw [hfront]
      constructor
      · rintro ⟨_, _, _, -, hlast⟩
        rw [List.getLast?_concat, Option.some.injEq, Statement.participant.injEq] at hlast
        exact hlast.2.1.symm
      · rintro rfl
        exact ⟨kind, b, value, hnamed, List.getLast?_concat⟩
    have hquotes := quote_mem_of_suffix (cut_unplaced front) (by rwa [map_kind_unplaced])
    -- the two names differ, since free text keeps the quotes
    have hname : shown value ≠ shown (Text.strip b) := by
      rw [Ne, shown_inj]
      rintro rfl
      exact hquotes.2 hquotes.1
    have hdrop : (said (front ++ back)).drop (said front).length = rest := by rw [hsaid, List.drop_left]
    rw [hfront, List.append_assoc, List.singleton_append] at hsaid
    rw [List.append_assoc before, List.singleton_append] at hcomment
    rw [hdrop]
    simp only [hends, forall_eq, read_eq_ok_iff, hsaid, hcomment, herror, hdeep]
    refine ⟨by simp, ?_⟩
    rintro d ⟨hroom, hok, rfl⟩
    rw [and_iff_right hroom, and_iff_right hok, eq_comm, Draft.toDiagram_participant_iff, or_iff_right hname]

end

/-- A participant with a string as the name. -/
def namedInQuotes : Text := "sequenceDiagram\nparticipant A as \"x\"".toList

/-- The same participant by another name on the next line. -/
def namedAgain : Text := "\nparticipant A as y".toList

theorem read_comment_named_again :
    '\n' ∉ "name".toList ∧
    listed (namedInQuotes ++ trailing "name".toList ++ namedAgain) =
      listed namedInQuotes ++ ("COMMENT".toList, "%% name".toList) :: listed namedAgain ∧
    ∃ d, (read {} (namedInQuotes ++ namedAgain)).outcome = .ok d ∧
      (read {} (namedInQuotes ++ trailing "name".toList ++ namedAgain)).outcome = .ok d := by
  have hc : '\n' ∉ "name".toList := by decide
  have h : listed (namedInQuotes ++ trailing "name".toList ++ namedAgain) =
      listed namedInQuotes ++ ("COMMENT".toList, "%% name".toList) :: listed namedAgain := by decide +kernel
  have hread := eq_ok_of_toOption (x := (read {} (namedInQuotes ++ namedAgain)).outcome)
    (a := { participants := [⟨.minted 0, "y".toList, .participant, some "A".toList, 0⟩] }) (by decide +kernel)
  refine ⟨hc, h, _, hread, ((read_comment_iff hc (Or.inr ⟨_, rfl⟩) h).2 _ hread).2 ?_⟩
  rintro key ⟨kind, b, value, -, hlast⟩
  have hsaid : (said namedInQuotes).getLast? =
      some (.participant .participant "A".toList (some "x".toList)) := by decide +kernel
  rw [hsaid, Option.some.injEq, Statement.participant.injEq] at hlast
  obtain ⟨-, rfl, -⟩ := hlast
  exact ⟨.participant .participant "A".toList (some "y".toList), by decide +kernel, _, _, rfl⟩

/-- A comment behind a name that is a string puts the quotes into the name. -/
theorem read_comment_quotes :
    ¬ ∀ front back c text : Text, '\n' ∉ c → (back = [] ∨ ∃ r, back = '\n' :: r) →
      listed (front ++ trailing c ++ back) = listed front ++ ("COMMENT".toList, text) :: listed back →
        ∀ d, (read {} (front ++ back)).outcome = .ok d → ∃ e, (read {} (front ++ trailing c ++ back)).outcome = .ok e ∧
          e.participants.map Participant.name = d.participants.map Participant.name := by
  intro hall
  have hread := eq_ok_of_toOption (x := (read {} (namedInQuotes ++ [])).outcome)
    (a := { participants := [⟨.minted 0, "x".toList, .participant, some "A".toList, 0⟩] }) (by decide +kernel)
  have hcomment := eq_ok_of_toOption (x := (read {} (namedInQuotes ++ trailing "c".toList ++ [])).outcome)
    (a := { participants := [⟨.minted 0, "\"x\"".toList, .participant, some "A".toList, 0⟩] }) (by decide +kernel)
  obtain ⟨e, he, hnames⟩ := hall namedInQuotes [] "c".toList "%% c".toList (by decide) (Or.inl rfl)
    (by decide +kernel) _ hread
  rw [hcomment] at he
  cases he
  exact absurd hnames (by decide)

end DiagramText.Sequence

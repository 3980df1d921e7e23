import DiagramText.Proofs.Report
import DiagramText.Session
import Mathlib.Data.List.Induction

/-!
# Runs of a session

A text that cannot be read and a step that is refused leave no trace in the diagram: what follows finds a session that
is `Alike`, so a run ends with the same diagram when they are left out of it.  The errors and the text are those of the
last update that was taken (`Shows`), where an update hands over a text or a diagram.  Both are proved for one step and
then along the run (`undisturbed_start`).

One step raises an error and does leave a trace: a diagram that cannot be written replaces the old one before it is to
be written (`Verdict.unwritten`, `unwritten_adopted`).  A run without such diagrams is undisturbed by every step that
raises an error.
-/

namespace DiagramText

/-! ### Readings of a dialect -/

namespace Dialect

variable {dialect : Dialect} {stack : Stack} {t : Text}

/-- A text of a dialect has a diagram of that dialect. -/
theorem dialect_of_read {d : Diagram} (h : (dialect.read stack t).outcome = .ok d) : d.dialect = dialect := by
  cases dialect
  all_goals
    obtain ⟨d', -, rfl⟩ := Reading.map_eq_ok_iff.1 h
    rfl

/-- A text that cannot be read has an error. -/
theorem errors_ne_nil_of_read {es : List ParseError} (h : (dialect.read stack t).outcome = .error es) : es ≠ [] := by
  cases dialect
  all_goals
    obtain ⟨hsome, rfl⟩ := Reading.ofFaults_eq_error_iff.1 (Reading.map_eq_error_iff.1 h)
    exact hsome

end Dialect

namespace Diagram

@[simp] theorem dialect_empty (dialect : Dialect) : (empty dialect).dialect = dialect := by cases dialect <;> rfl

@[simp] theorem dialect_relocate (place : Text → Option Position) (d : Diagram) :
    (d.relocate place).dialect = d.dialect := by cases d <;> rfl

@[simp] theorem dialect_restore (previous : Option Diagram) (d : Diagram) : (d.restore previous).dialect = d.dialect :=
  dialect_relocate _ d

@[simp] theorem dialect_move (i : Nat) (p : Position) (d : Diagram) : (d.move i p).dialect = d.dialect := by
  cases d <;> rfl

@[simp] theorem dialect_rename (i : Nat) (name : Text) (d : Diagram) : (d.rename i name).dialect = d.dialect := by
  cases d <;> rfl

end Diagram

/-- The value is a diagram of the dialect, without a flaw. -/
def Value.IsOf (dialect : Dialect) : Value → Prop
  | diagram d => d.dialect = dialect
  | flawed _ _ _ | other _ => False

/-- The reason of a flaw. -/
def Flaw.reason : Flaw → Refusal
  | copying reason | writing reason => reason

/-- Why a session of the dialect refuses a value that is no diagram of it or has a flaw. -/
def Value.refusal (dialect : Dialect) : Value → Refusal
  | flawed d name flaw => if d.dialect = dialect then flaw.reason else .wrongDiagram dialect name
  | v => .wrongDiagram dialect v.typeName

/-- Whether a step hands over a diagram that cannot be written. -/
def Step.isUnwritable : Step → Bool
  | model (.flawed _ _ (.writing _)) => true
  | _ => false

/-- Whether a step hands over a text or a diagram. -/
def Step.isUpdate : Step → Bool
  | text _ | model _ | remodel => true
  | move _ _ | rename _ _ => false

namespace Session

variable {s : Session} {step : Step}

/-! ### Runs -/

/-- The session behind a list of steps. -/
def run (s : Session) (steps : List Step) : Session := steps.foldl after s

@[simp] theorem run_cons (s : Session) (step : Step) (steps : List Step) :
    s.run (step :: steps) = (s.after step).run steps := rfl

theorem run_concat (s : Session) (steps : List Step) (step : Step) :
    s.run (steps ++ [step]) = (s.run steps).after step := List.foldl_append

/-- How a step ends. -/
inductive Verdict where
  | done
  /-- The text is taken, but it cannot be read. -/
  | unread
  /-- The diagram is taken, but it cannot be written. -/
  | unwritten
  /-- An error is raised and nothing is taken. -/
  | refused
deriving DecidableEq, Repr

def verdict (s : Session) (step : Step) : Verdict :=
  match s.apply step with
  | (_, .ok (.accepted false)) => .unread
  | (_, .ok _) => .done
  | (next, .error _) => if next = s then .refused else .unwritten

/-- Whether a step raises an error. -/
def Verdict.isRaised : Verdict → Bool
  | unwritten | refused => true
  | done | unread => false

/-- The value that a step hands over. -/
def handed? (s : Session) : Step → Option Value
  | .model v => some v
  | .remodel => some s.value
  | _ => none

/-- The steps of a run that `p` picks, each judged in the session that it is for. -/
def pick (p : Step → Verdict → Bool) (s : Session) : List Step → List Step
  | [] => []
  | step :: steps => (if p step (s.verdict step) then [step] else []) ++ (s.after step).pick p steps

/-- The last update of a run that raised no error. -/
def lastUpdate? (s : Session) (steps : List Step) : Option Step :=
  (s.pick (fun step verdict => step.isUpdate && !verdict.isRaised) steps).getLast?

/-- A run without the steps that fail. -/
def succeeding (s : Session) (steps : List Step) : List Step := s.pick (fun _ verdict => verdict = .done) steps

/-- A run without the steps that leave the diagram as it is because they fail. -/
def effective (s : Session) (steps : List Step) : List Step :=
  s.pick (fun _ verdict => verdict = .done ∨ verdict = .unwritten) steps

theorem pick_concat (p : Step → Verdict → Bool) (s : Session) (steps : List Step) (step : Step) :
    s.pick p (steps ++ [step]) = s.pick p steps ++ if p step ((s.run steps).verdict step) then [step] else [] := by
  induction steps generalizing s with
  | nil => exact List.append_nil _
  | cons first steps ih => rw [List.cons_append, pick, ih, pick, List.append_assoc, run_cons]

theorem lastUpdate?_concat (s : Session) (steps : List Step) (step : Step) :
    s.lastUpdate? (steps ++ [step]) =
      if step.isUpdate && !((s.run steps).verdict step).isRaised then some step else s.lastUpdate? steps := by
  rw [lastUpdate?, pick_concat]
  split
  · exact List.getLast?_concat
  · rw [List.append_nil]
    rfl

theorem effective_concat (s : Session) (steps : List Step) (step : Step) :
    s.effective (steps ++ [step]) = s.effective steps ++
      if (s.run steps).verdict step = .done ∨ (s.run steps).verdict step = .unwritten then [step] else [] := by
  rw [effective, pick_concat]
  simp [effective]

/-! ### What a step does -/

/-- The cases of a step: how it ends, and the session behind it. -/
inductive Effect (s : Session) : Step → Verdict → Session → Prop where
  | read {t : Text} {d : Diagram} (h : (s.dialect.read s.stack t).outcome = .ok d) :
    Effect s (.text t) .done { s with text := t, diagram := d.restore s.diagram, errors := [], flaw := none }
  | unread {t : Text} {es : List ParseError} (h : (s.dialect.read s.stack t).outcome = .error es) :
    Effect s (.text t) .unread { s with text := t, errors := es }
  | adopted {step : Step} {d : Diagram} (hstep : s.handed? step = some (.diagram d)) (h : d.dialect = s.dialect) :
    Effect s step .done { s with text := d.write s.size, diagram := d, errors := [], flaw := none }
  | unwritten {step : Step} {d : Diagram} {name : Text} {reason : Refusal}
    (hstep : s.handed? step = some (.flawed d name (.writing reason))) (h : d.dialect = s.dialect) :
    Effect s step .unwritten { s with diagram := d, flaw := some (name, reason) }
  | refused {step : Step} {v : Value} (hstep : s.handed? step = some v) (h : ¬ v.IsOf s.dialect) :
    Effect s step .refused s
  | moved (i : Nat) (p : Position) : Effect s (.move i p) .done { s with diagram := s.diagram.move i p }
  | renamed (i : Nat) (name : Text) :
    Effect s (.rename i name) .done { s with diagram := s.diagram.rename i name }

theorem after_text_of_ok {t : Text} {d : Diagram} (h : (s.dialect.read s.stack t).outcome = .ok d) :
    s.after (.text t) = { s with text := t, diagram := d.restore s.diagram, errors := [], flaw := none } := by
  simp only [after, apply, takeText, h]

theorem after_text_of_error {t : Text} {es : List ParseError} (h : (s.dialect.read s.stack t).outcome = .error es) :
    s.after (.text t) = { s with text := t, errors := es } := by
  simp only [after, apply, takeText, h]

/-- A step that hands over a value does with it what `takeModel` does. -/
theorem apply_of_handed? {v : Value} (h : s.handed? step = some v) : s.apply step = s.takeModel v := by
  cases step with
  | model w => exact congrArg s.takeModel (Option.some.inj h)
  | remodel => exact congrArg s.takeModel (Option.some.inj h)
  | _ => cases h

theorem takeModel_of_isOf {d : Diagram} (h : d.dialect = s.dialect) : s.takeModel (.diagram d) =
    ({ s with text := d.write s.size, diagram := d, errors := [], flaw := none }, .ok (.text (d.write s.size))) :=
  if_pos h

theorem takeModel_unwritable {d : Diagram} {name : Text} {reason : Refusal} (h : d.dialect = s.dialect) :
    s.takeModel (.flawed d name (.writing reason)) =
      ({ s with diagram := d, flaw := some (name, reason) }, .error reason) := if_pos h

/-- A value that is no diagram of the dialect or has a flaw is refused. -/
theorem takeModel_of_not {v : Value} (h : ¬ v.IsOf s.dialect) : (s.takeModel v).2 = .error (v.refusal s.dialect) := by
  cases v with
  | diagram d =>
    have hd : ¬ d.dialect = s.dialect := h
    simp only [takeModel, if_neg hd]
    rfl
  | flawed d name flaw =>
    simp only [takeModel, Value.refusal]
    split
    · cases flaw <;> rfl
    · rfl
  | other name => rfl

/-- It is not taken, unless it is a diagram that cannot be written. -/
theorem takeModel_eq_self {v : Value} (h : ¬ v.IsOf s.dialect) :
    (s.takeModel v).1 = s ∨ ∃ d name reason, v = .flawed d name (.writing reason) ∧ d.dialect = s.dialect := by
  cases v with
  | diagram d =>
    have hd : ¬ d.dialect = s.dialect := h
    simp only [takeModel, if_neg hd]
    exact .inl trivial
  | flawed d name flaw =>
    by_cases hd : d.dialect = s.dialect
    · cases flaw with
      | copying reason => exact .inl (congrArg Prod.fst (if_pos hd))
      | writing reason => exact .inr ⟨d, name, reason, rfl, hd⟩
    · exact .inl (congrArg Prod.fst (if_neg hd))
  | other name => exact .inl rfl

/-- Every step is one of these cases. -/
theorem effect (s : Session) (step : Step) : s.Effect step (s.verdict step) (s.after step) := by
  cases hhanded : s.handed? step with
  | none =>
    cases step with
    | text t =>
      unfold verdict after
      cases hread : (s.dialect.read s.stack t).outcome with
      | ok d =>
        simp only [apply, takeText, hread]
        exact .read hread
      | error es =>
        simp only [apply, takeText, hread]
        exact .unread hread
    | move i p => exact .moved i p
    | rename i name => exact .renamed i name
    | model v => cases hhanded
    | remodel => cases hhanded
  | some v =>
    have happly := apply_of_handed? hhanded
    by_cases hv : v.IsOf s.dialect
    · cases v with
      | diagram d =>
        rw [takeModel_of_isOf hv] at happly
        rw [verdict, after, happly]
        exact .adopted hhanded hv
      | _ => exact hv.elim
    · have herror : s.apply step = ((s.takeModel v).1, .error (v.refusal s.dialect)) :=
        happly.trans (Prod.ext rfl (takeModel_of_not hv))
      rw [verdict, after, herror]
      dsimp only
      -- a value with an error leaves its trace only if it is a diagram that cannot be written
      split
      · rename_i hsame
        rw [hsame]
        exact .refused hhanded hv
      · rename_i hother
        obtain ⟨d, name, reason, rfl, hd⟩ := (takeModel_eq_self hv).resolve_left hother
        rw [takeModel_unwritable hd]
        exact .unwritten hhanded hd

/-- A step raises an error if and only if it hands over a value that is no diagram of the dialect or has a flaw. -/
theorem apply_eq_error_iff {refusal : Refusal} : (s.apply step).2 = .error refusal ↔
    ∃ v, s.handed? step = some v ∧ ¬ v.IsOf s.dialect ∧ refusal = v.refusal s.dialect := by
  constructor
  · intro happly
    cases hhanded : s.handed? step with
    | none =>
      cases step with
      | text t =>
        have hok : (s.apply (.text t)).2 = .ok (s.takeText t).2 := rfl
        cases hok.symm.trans happly
      | move i p => cases happly
      | rename i name => cases happly
      | model v => cases hhanded
      | remodel => cases hhanded
    | some v =>
      rw [apply_of_handed? hhanded] at happly
      by_cases hv : v.IsOf s.dialect
      · cases v with
        | diagram d =>
          rw [takeModel_of_isOf hv] at happly
          cases happly
        | _ => exact hv.elim
      · rw [takeModel_of_not hv] at happly
        exact ⟨v, rfl, hv, (Except.error.inj happly).symm⟩
  · rintro ⟨v, hhanded, hv, rfl⟩
    rw [apply_of_handed? hhanded, takeModel_of_not hv]

/-! ### One step -/

section

variable {s' t : Session} {verdict : Verdict}

theorem Effect.dialect_eq (h : s.Effect step verdict s') : s'.dialect = s.dialect := by cases h <;> rfl

theorem Effect.stack_eq (h : s.Effect step verdict s') : s'.stack = s.stack := by cases h <;> rfl

/-- A session keeps to diagrams of its dialect. -/
theorem Effect.dialect_diagram (h : s.Effect step verdict s') (hs : s.diagram.dialect = s.dialect) :
    s'.diagram.dialect = s.dialect := by
  cases h with
  | read hread => exact (Diagram.dialect_restore _ _).trans (Dialect.dialect_of_read hread)
  | adopted hstep hd => exact hd
  | unwritten hstep hd => exact hd
  | moved i p => exact (Diagram.dialect_move i p _).trans hs
  | renamed i name => exact (Diagram.dialect_rename i name _).trans hs
  | _ => exact hs

/-- What a session shows when `last` was the last update that raised no error. -/
structure Shows (s : Session) (last : Option Step) : Prop where
  errors_iff : s.errors ≠ [] ↔ ∃ t es, last = some (.text t) ∧ (s.dialect.read s.stack t).outcome = .error es
  errors_eq : ∀ t es, last = some (.text t) → (s.dialect.read s.stack t).outcome = .error es →
    s.errors = es ∧ s.text = t

/-- A session without errors shows any update that succeeded. -/
theorem Shows.of_nil {last : Option Step} (herrors : s.errors = [])
    (hlast : ∀ t, last = some (.text t) → ∃ d, (s.dialect.read s.stack t).outcome = .ok d) : s.Shows last := by
  have hnone : ∀ t es, last = some (.text t) → (s.dialect.read s.stack t).outcome ≠ .error es := by
    intro t es ht
    obtain ⟨d, hd⟩ := hlast t ht
    rw [hd]
    exact nofun
  refine ⟨⟨fun h => absurd herrors h, ?_⟩, fun t es ht h => absurd h (hnone t es ht)⟩
  rintro ⟨t, es, ht, h⟩
  exact absurd h (hnone t es ht)

/-- A step that hands over a value hands over no text. -/
private theorem ne_text_of_handed? {v : Value} (h : s.handed? step = some v) (t : Text) : step ≠ .text t := by
  rintro rfl
  cases h

theorem Effect.shows (h : s.Effect step verdict s') {last : Option Step} (hs : s.Shows last) :
    s'.Shows (if step.isUpdate && !verdict.isRaised then some step else last) := by
  cases h with
  | read hread =>
    refine Shows.of_nil rfl ?_
    rintro t ⟨⟩
    exact ⟨_, hread⟩
  | @unread t es hread =>
    constructor
    · exact iff_of_true (Dialect.errors_ne_nil_of_read hread) ⟨t, es, rfl, hread⟩
    · rintro t' es' ⟨⟩ hread'
      exact ⟨Except.error.inj (hread.symm.trans hread'), rfl⟩
  | adopted hstep hd =>
    have hupdate : step.isUpdate = true := by
      cases step with
      | model v => rfl
      | remodel => rfl
      | _ => cases hstep
    rw [if_pos (by simp [hupdate, Verdict.isRaised])]
    exact Shows.of_nil rfl fun t ht => absurd (Option.some.inj ht) (ne_text_of_handed? hstep t)
  | unwritten hstep hd =>
    rw [if_neg (by simp [Verdict.isRaised])]
    exact ⟨hs.errors_iff, hs.errors_eq⟩
  | refused hstep hv =>
    rw [if_neg (by simp [Verdict.isRaised])]
    exact hs
  | moved i p => exact ⟨hs.errors_iff, hs.errors_eq⟩
  | renamed i name => exact ⟨hs.errors_iff, hs.errors_eq⟩

/-- The sessions differ in the text and its errors only. -/
structure Alike (s t : Session) : Prop where
  dialect : s.dialect = t.dialect
  diagram : s.diagram = t.diagram
  size : s.size = t.size
  flaw : s.flaw = t.flaw
  stack : s.stack = t.stack

theorem Alike.trans {r : Session} (h : r.Alike s) (h' : s.Alike t) : r.Alike t where
  dialect := h.dialect.trans h'.dialect
  diagram := h.diagram.trans h'.diagram
  size := h.size.trans h'.size
  flaw := h.flaw.trans h'.flaw
  stack := h.stack.trans h'.stack

/-- A step that is not taken leaves no trace but in the text and its errors. -/
theorem Effect.alike (h : s.Effect step verdict s') (hfail : ¬ (verdict = .done ∨ verdict = .unwritten)) :
    s'.Alike s := by
  cases h with
  | unread hread => exact ⟨rfl, rfl, rfl, rfl, rfl⟩
  | refused hstep hv => exact ⟨rfl, rfl, rfl, rfl, rfl⟩
  | _ => simp at hfail

private theorem Alike.takeModel (h : s.Alike t) (v : Value) : (s.takeModel v).1.Alike (t.takeModel v).1 := by
  cases v with
  | diagram d =>
    simp only [Session.takeModel, ← h.dialect]
    split
    · exact ⟨h.dialect, rfl, h.size, rfl, h.stack⟩
    · exact h
  | flawed d name flaw =>
    simp only [Session.takeModel, ← h.dialect]
    split
    · cases flaw with
      | copying reason => exact h
      | writing reason => exact ⟨h.dialect, rfl, h.size, rfl, h.stack⟩
    · exact h
  | other name => exact h

/-- A step does not depend on the text and its errors. -/
theorem Alike.after (h : s.Alike t) (step : Step) : (s.after step).Alike (t.after step) := by
  cases step with
  | text x =>
    have hread : (t.dialect.read t.stack x).outcome = (s.dialect.read s.stack x).outcome := by rw [h.dialect, h.stack]
    simp only [Session.after, apply, takeText, hread]
    cases (s.dialect.read s.stack x).outcome with
    | ok d =>
      exact ⟨h.dialect, congrArg (fun previous : Diagram => d.restore previous) h.diagram, h.size, rfl, h.stack⟩
    | error es => exact ⟨h.dialect, h.diagram, h.size, h.flaw, h.stack⟩
  | model v => exact h.takeModel v
  | remodel =>
    have hvalue : s.value = t.value := by rw [value, value, h.flaw, h.diagram]
    show (s.takeModel s.value).1.Alike (t.takeModel t.value).1
    rw [hvalue]
    exact h.takeModel _
  | move i p => exact ⟨h.dialect, congrArg (Diagram.move i p) h.diagram, h.size, h.flaw, h.stack⟩
  | rename i name => exact ⟨h.dialect, congrArg (Diagram.rename i name) h.diagram, h.size, h.flaw, h.stack⟩

/-- As long as the diagram of a session can be written, only a step that brings one hands over one that cannot be. -/
private theorem handed?_ne_flawed (hs : s.flaw = none) (hstep : step.isUnwritable = false) {d : Diagram} {name : Text}
    {reason : Refusal} : s.handed? step ≠ some (.flawed d name (.writing reason)) := by
  intro hhanded
  cases step with
  | model v =>
    obtain rfl := Option.some.inj hhanded
    cases hstep
  | remodel =>
    have hvalue : s.value = .diagram s.diagram := by rw [value, hs]
    cases hvalue.symm.trans (Option.some.inj hhanded)
  | _ => cases hhanded

theorem Effect.flaw_eq_none (h : s.Effect step verdict s') (hs : s.flaw = none) (hstep : step.isUnwritable = false) :
    s'.flaw = none ∧ verdict ≠ .unwritten := by
  cases h with
  | unwritten hhanded hd => exact absurd hhanded (handed?_ne_flawed hs hstep)
  | read hread => exact ⟨rfl, nofun⟩
  | adopted hhanded hd => exact ⟨rfl, nofun⟩
  | _ => exact ⟨hs, nofun⟩

end

/-! ### Whole runs -/

theorem dialect_run (s : Session) (steps : List Step) : (s.run steps).dialect = s.dialect := by
  induction steps generalizing s with
  | nil => rfl
  | cons step steps ih => exact (ih _).trans (s.effect step).dialect_eq

theorem stack_run (s : Session) (steps : List Step) : (s.run steps).stack = s.stack := by
  induction steps generalizing s with
  | nil => rfl
  | cons step steps ih => exact (ih _).trans (s.effect step).stack_eq

theorem dialect_diagram_run (h : s.diagram.dialect = s.dialect) (steps : List Step) :
    (s.run steps).diagram.dialect = s.dialect := by
  induction steps generalizing s with
  | nil => exact h
  | cons step steps ih =>
    have heffect := s.effect step
    rw [← heffect.dialect_eq]
    exact ih ((heffect.dialect_diagram h).trans heffect.dialect_eq.symm)

/-- A run shows its last update that raised no error. -/
theorem shows_run (h : s.errors = []) (steps : List Step) : (s.run steps).Shows (s.lastUpdate? steps) := by
  induction steps using List.reverseRecOn with
  | nil => exact Shows.of_nil h nofun
  | append_singleton steps step ih =>
    rw [run_concat, lastUpdate?_concat]
    exact ((s.run steps).effect step).shows ih

/-- The steps that are not taken can be left out. -/
theorem alike_run_effective (s : Session) (steps : List Step) : (s.run steps).Alike (s.run (s.effective steps)) := by
  induction steps using List.reverseRecOn with
  | nil => exact ⟨rfl, rfl, rfl, rfl, rfl⟩
  | append_singleton steps step ih =>
    rw [run_concat, effective_concat]
    by_cases htaken : (s.run steps).verdict step = .done ∨ (s.run steps).verdict step = .unwritten
    · -- both runs take the step, in sessions that are alike
      rw [if_pos htaken, run_concat]
      exact ih.after step
    · -- only one run has the step, and it is not taken there
      rw [if_neg htaken, List.append_nil]
      exact (((s.run steps).effect step).alike htaken).trans ih

theorem flaw_run (h : s.flaw = none) {steps : List Step} (hsteps : ∀ step ∈ steps, step.isUnwritable = false) :
    (s.run steps).flaw = none := by
  induction steps generalizing s with
  | nil => exact h
  | cons step steps ih =>
    have hstep := ((s.effect step).flaw_eq_none h (hsteps step List.mem_cons_self)).1
    exact ih hstep fun later hlater => hsteps later (List.mem_cons_of_mem step hlater)

/-- If every diagram that is handed over can be written, no step is taken but those that succeed. -/
theorem effective_eq_succeeding (h : s.flaw = none) {steps : List Step}
    (hsteps : ∀ step ∈ steps, step.isUnwritable = false) : s.effective steps = s.succeeding steps := by
  induction steps generalizing s with
  | nil => rfl
  | cons step steps ih =>
    obtain ⟨hflaw, hverdict⟩ := (s.effect step).flaw_eq_none h (hsteps step List.mem_cons_self)
    have htail := ih hflaw fun later hlater => hsteps later (List.mem_cons_of_mem step hlater)
    simp only [effective, succeeding] at htail ⊢
    rw [pick, pick, htail]
    simp [hverdict]

/-- Failing steps of a run leave the diagram undisturbed, apart from diagrams that cannot be written. -/
structure Undisturbed (s : Session) (steps : List Step) : Prop where
  dialect : (s.run steps).diagram.dialect = s.dialect
  /-- There are errors if and only if the last update that raised no error was a text that cannot be read. -/
  errors_iff : (s.run steps).errors ≠ [] ↔
    ∃ t es, s.lastUpdate? steps = some (.text t) ∧ (s.dialect.read s.stack t).outcome = .error es
  errors_eq : ∀ t es, s.lastUpdate? steps = some (.text t) → (s.dialect.read s.stack t).outcome = .error es →
    (s.run steps).errors = es ∧ (s.run steps).text = t
  /-- An error is raised if and only if a value is handed over that is no diagram of the dialect or has a flaw. -/
  raised_iff : ∀ step refusal, ((s.run steps).apply step).2 = .error refusal ↔
    ∃ v, (s.run steps).handed? step = some v ∧ ¬ v.IsOf s.dialect ∧ refusal = v.refusal s.dialect
  /-- Then nothing is changed, unless it is a diagram of the dialect that cannot be written: this one is taken, and
  the text and the errors remain. -/
  raised : ∀ step refusal, ((s.run steps).apply step).2 = .error refusal → s.run (steps ++ [step]) = s.run steps ∨
    ∃ d name reason, (s.run steps).handed? step = some (.flawed d name (.writing reason)) ∧ d.dialect = s.dialect ∧
      s.run (steps ++ [step]) = { s.run steps with diagram := d, flaw := some (name, reason) }
  diagram : (s.run steps).diagram = (s.run (s.effective steps)).diagram
  /-- If every diagram that is handed over can be written, a step that raises an error changes nothing, and the diagram
  is that of the steps that succeed. -/
  unchanged : (∀ step ∈ steps, step.isUnwritable = false) →
    (∀ step refusal, step.isUnwritable = false → ((s.run steps).apply step).2 = .error refusal →
      s.run (steps ++ [step]) = s.run steps) ∧
    (s.run steps).diagram = (s.run (s.succeeding steps)).diagram

/-- What is left behind by a step that raises an error. -/
theorem run_of_error {refusal : Refusal} {steps : List Step} (h : ((s.run steps).apply step).2 = .error refusal) :
    s.run (steps ++ [step]) = s.run steps ∨
      ∃ d name reason, (s.run steps).handed? step = some (.flawed d name (.writing reason)) ∧
        d.dialect = (s.run steps).dialect ∧
        s.run (steps ++ [step]) = { s.run steps with diagram := d, flaw := some (name, reason) } := by
  obtain ⟨v, hhanded, hv, -⟩ := apply_eq_error_iff.1 h
  rw [run_concat, after, apply_of_handed? hhanded]
  rcases takeModel_eq_self hv with hsame | ⟨d, name, reason, rfl, hd⟩
  · exact .inl hsame
  · exact .inr ⟨d, name, reason, hhanded, hd, by rw [takeModel_unwritable hd]⟩

/-- A diagram of a type of its own, of which there is no writer. -/
def outsider : Value :=
  .flawed (.er { entities := [{ id := .given "a".toList, name := "A".toList }] }) "Outsider".toList
    (.writing (.notWritable "Outsider".toList))

/-- A text that cannot be read and a value of another kind are left out. -/
example : (start {} .er [] none 4).effective [.text "A\nB".toList, .text "A \x7b".toList, .move 1 ⟨9, 9⟩,
    .model (.other "int".toList), .text "B".toList] = [.text "A\nB".toList, .move 1 ⟨9, 9⟩, .text "B".toList] := by
  decide +kernel

end Session

end DiagramText

import DiagramText.Report

/-!
# How a reading ends

A reading succeeds if no fault was found (`Reading.ofFaults_eq_ok_iff`) and fails with all faults otherwise
(`Reading.ofFaults_eq_error_iff`).  As a reading of another kind it ends in the same way (`Reading.map_eq_ok_iff`,
`Reading.map_eq_error_iff`), and so it does when the same faults are found elsewhere (`Reading.outcome_congr`).
-/

namespace DiagramText

variable {δ : Type} {diagram d : δ} {errors es : List ParseError} {notices : List Notice}

theorem Reading.ofFaults_eq_ok_iff :
    (Reading.ofFaults diagram errors notices).outcome = .ok d ↔ errors = [] ∧ diagram = d := by
  unfold ofFaults
  split
  · rename_i h
    simp [h]
  · rename_i h
    simp [h]

theorem Reading.ofFaults_eq_error_iff :
    (Reading.ofFaults diagram errors notices).outcome = .error es ↔ errors ≠ [] ∧ errors = es := by
  unfold ofFaults
  split
  · rename_i h
    simp [h]
  · rename_i h
    simp [h]

/-- The error with its place moved. -/
def ParseError.move (f : Place → Place) (e : ParseError) : ParseError := ⟨f e.place, e.fault⟩

/-- Errors that are the same but for their places make readings end in the same way. -/
theorem Reading.outcome_congr {notices' : List Notice} {f : Place → Place} (hd : diagram = d)
    (herrors : errors.map (ParseError.move f) = es.map (ParseError.move f)) :
    (Reading.ofFaults diagram errors notices).outcome.mapError (List.map (ParseError.move f)) =
      (Reading.ofFaults d es notices').outcome.mapError (List.map (ParseError.move f)) := by
  have hnil : errors = [] ↔ es = [] := by
    rw [← List.map_eq_nil_iff (f := ParseError.move f), herrors, List.map_eq_nil_iff]
  unfold ofFaults
  by_cases h : errors = []
  · rw [if_pos h, if_pos (hnil.1 h), hd]
  · rw [if_neg h, if_neg (mt hnil.2 h)]
    exact congrArg Except.error herrors

/-- What is told by the moved errors is the same if these are. -/
theorem mapError_congr {φ : Type} {f : Place → Place} {g : ParseError → φ} (hg : ∀ e, g (e.move f) = g e)
    {x y : Except (List ParseError) δ} (h : x.mapError (List.map (ParseError.move f)) =
      y.mapError (List.map (ParseError.move f))) : x.mapError (List.map g) = y.mapError (List.map g) := by
  have hmoved : ∀ x : Except (List ParseError) δ,
      x.mapError (List.map g) = (x.mapError (List.map (ParseError.move f))).mapError (List.map g) := by
    intro x
    cases x with
    | ok d => rfl
    | error es =>
      refine congrArg Except.error ?_
      rw [List.map_map]
      exact List.map_congr_left fun e _ => (hg e).symm
  rw [hmoved, h, ← hmoved]

theorem Reading.map_eq_ok_iff {ε : Type} {f : δ → ε} {r : Reading δ} {b : ε} :
    (r.map f).outcome = .ok b ↔ ∃ a, r.outcome = .ok a ∧ f a = b := by
  obtain ⟨outcome, notices⟩ := r
  cases outcome with
  | ok a => simp [Reading.map, Except.map]
  | error es => simp [Reading.map, Except.map]

theorem Reading.map_eq_error_iff {ε : Type} {f : δ → ε} {r : Reading δ} :
    (r.map f).outcome = .error es ↔ r.outcome = .error es := by
  obtain ⟨outcome, notices⟩ := r
  cases outcome with
  | ok a => simp [Reading.map, Except.map]
  | error es => simp [Reading.map, Except.map]

theorem Reading.mapError_map {ε φ : Type} {f : δ → ε} {g : List ParseError → φ} (r : Reading δ) :
    (r.map f).outcome.mapError g = (r.outcome.mapError g).map f := by
  obtain ⟨outcome, notices⟩ := r
  cases outcome <;> rfl

/-- Readings that end in the same way do so as readings of another kind. -/
theorem Reading.mapError_map_congr {ε φ : Type} (f : δ → ε) {g : List ParseError → φ} {r r' : Reading δ}
    (h : r.outcome.mapError g = r'.outcome.mapError g) :
    (r.map f).outcome.mapError g = (r'.map f).outcome.mapError g := by
  rw [mapError_map, mapError_map, h]

/-- Whether an outcome is a given diagram can be decided where diagrams can be told apart. -/
theorem eq_ok_of_toOption {ε α : Type} {x : Except ε α} {a : α} (h : x.toOption = some a) : x = .ok a := by
  cases x with
  | error e => cases h
  | ok b =>
    cases h
    rfl

end DiagramText

import DiagramText.CommandLine.Folder
import DiagramText.CommandLine.Run
import DiagramText.Proofs.Keyed

/-!
# What a run leaves as it is

A run reads its input before it opens a file for writing, and the only file that it opens is the one that the output
setting names (`run_cases`).  So whatever is found around it, the other files stay, and the output file changes only if
the input was read and something was to be written (`framed_run`).  Its content is then the text that the run prints
without an output, before the stream does something to it, unless the writing stops on the way: then the beginning of
this text is all there is in the file, and the run fails.

Of the surroundings nothing is taken for granted but that a stream shows a text without escape characters as it is
(`Shell.PrintsPlain`).  Others it may change, and the file does not (`run_output_control`).
-/

namespace DiagramText.CommandLine

/-- A text without escape characters is printed as it is. -/
def Shell.PrintsPlain (shell : Shell) : Prop := ∀ text, '\x1b' ∉ text → shell.echo text = text

theorem Shell.printsPlain_plain : Shell.plain.PrintsPlain := fun _ => Text.withoutControls_of_not_mem

/-- The text of the input, if it can be read. -/
def inputText? (shell : Shell) (o : Options) (stdin : Text) (folder : Folder) : Option Text :=
  match o.input.filter (· ≠ []) with
  | none => some (unifyBreaks stdin)
  | some path => ((shell.read folder path).toOption).map unifyBreaks

/-- What comes of reading the text of an input. -/
def outcomeOf (shell : Shell) (o : Options) (text : Text) : Except (List ParseError) Diagram :=
  ((o.dialect.getD (.detect text)).read shell.stack text).outcome

/-- The ways in which a content may come to the file at a path: as a whole, in part, or not at all. -/
inductive Stored (shell : Shell) (folder : Folder) (path content : Text) (out : Outcome) : Prop where
  | whole {key : Text} (located : shell.locate folder path = .ok key) (goes : shell.stopped folder key content = none)
    (exit : out.exit = 0) (files : out.folder = folder.upsert key fun _ => content)
  | part {key : Text} {n : Nat} {t : Trouble} (located : shell.locate folder path = .ok key)
    (stops : shell.stopped folder key content = some (n, t)) (exit : out.exit = 1)
    (files : out.folder = folder.upsert key fun _ => content.take n)
  | none {t : Trouble} (located : shell.locate folder path = .error t) (exit : out.exit = 1)
    (files : out.folder = folder)

/-- The options ask for something to be written to the file at a path, and there is a diagram to write. -/
structure Writes (shell : Shell) (stdin : Text) (folder : Folder) (o : Options) (path : Text) : Prop where
  output : o.output = some path
  named : path ≠ []
  check : o.check = false
  parsed : ∃ text d, inputText? shell o stdin folder = some text ∧ outcomeOf shell o text = .ok d

section

variable {shell : Shell} {o : Options} {args : List Text} {stdin text path : Text} {folder : Folder}

/-! ### What a run does -/

/-- The input is processed if it can be read; if not, the run ends before anything is written. -/
theorem run_of_options (hargs : shell.request args folder = .options o) :
    (∃ text, inputText? shell o stdin folder = some text ∧ run shell args stdin folder = process shell o folder text) ∨
      inputText? shell o stdin folder = none ∧
        ∃ report, run shell args stdin folder = { exit := 1, stderr := report, folder } := by
  simp only [run, hargs, inputText?]
  cases o.input.filter (· ≠ []) with
  | none => exact Or.inl ⟨_, rfl, rfl⟩
  | some path =>
    dsimp only
    cases shell.read folder path with
    | ok content => exact Or.inl ⟨_, rfl, rfl⟩
    | error t => exact Or.inr ⟨rfl, _, rfl⟩

theorem run_of_input (hargs : shell.request args folder = .options o)
    (hinput : inputText? shell o stdin folder = some text) :
    run shell args stdin folder = process shell o folder text := by
  rcases run_of_options hargs with ⟨text', hinput', hrun⟩ | ⟨hnone, -⟩
  · rw [hinput, Option.some.injEq] at hinput'
    rw [hrun, hinput']
  · rw [hinput] at hnone
    cases hnone

/-- A text that does not parse is reported, and nothing is written. -/
theorem process_error {errors : List ParseError} (h : outcomeOf shell o text = .error errors) (folder : Folder) :
    ∃ report, process shell o folder text = { exit := 1, stderr := report, folder } := by
  have hcontent : (produce shell.stack o text).content = .error errors := congrArg (Except.map (rendered o _)) h
  simp only [process, hcontent]
  exact ⟨_, rfl⟩

theorem process_check {d : Diagram} (h : outcomeOf shell o text = .ok d) (hcheck : o.check = true)
    (folder : Folder) : ∃ log, process shell o folder text = { stderr := log, folder } := by
  have hcontent : (produce shell.stack o text).content = .ok none := by
    have hnone : rendered o (o.dialect.getD (.detect text)) d = none := if_pos hcheck
    rw [← hnone]
    exact congrArg (Except.map (rendered o _)) h
  simp only [process, hcontent]
  exact ⟨_, rfl⟩

/-- What is made of a text does not depend on where it is delivered. -/
theorem process_deliver {d : Diagram} (h : outcomeOf shell o text = .ok d) (hcheck : o.check = false) :
    ∃ log content, ∀ output folder,
      process shell { o with output } folder text = deliver shell { o with output } folder log content := by
  obtain ⟨content, hsome⟩ : ∃ content, rendered o (o.dialect.getD (.detect text)) d = some content := by
    rw [rendered, if_neg (by rw [hcheck]; exact Bool.false_ne_true)]
    split
    · exact ⟨_, rfl⟩
    · exact ⟨_, rfl⟩
  have hcontent : (produce shell.stack o text).content = .ok (some content) := by
    rw [← hsome]
    exact congrArg (Except.map (rendered o _)) h
  refine ⟨(produce shell.stack o text).log, content, fun output folder => ?_⟩
  have hsame : produce shell.stack { o with output } text = produce shell.stack o text := rfl
  simp only [process, hsame, hcontent]

/-- What is delivered to a path prints nothing. -/
theorem deliver_output (houtput : o.output = some path) (hnamed : path ≠ []) (log content : Text) :
    (deliver shell o folder log content).stdout = [] ∧
      Stored shell folder path content (deliver shell o folder log content) := by
  have hpath : o.output.filter (· ≠ []) = some path := by rw [houtput]; simp [hnamed]
  simp only [deliver, hpath, store]
  cases hlocate : shell.locate folder path with
  | error t => exact ⟨rfl, .none hlocate rfl rfl⟩
  | ok key =>
    dsimp only
    cases hstopped : shell.stopped folder key content with
    | none => exact ⟨rfl, .whole hlocate hstopped rfl rfl⟩
    | some stop => exact ⟨rfl, .part hlocate hstopped rfl rfl⟩

/-- Without a path a text is printed, and no file changes. -/
theorem deliver_stdout (houtput : ∀ path, o.output = some path → path = []) (log content : Text) :
    deliver shell o folder log content = { stdout := shell.echo content, stderr := log, folder } := by
  have hnone : o.output.filter (· ≠ []) = none := by
    cases ho : o.output with
    | none => rfl
    | some path => simp [houtput path ho]
  rw [deliver, hnone]

/-- A run that writes stores a text, and prints nothing.  The same text, as a stream shows it, is all that the same
options print without an output. -/
theorem run_of_writes (hargs : shell.request args folder = .options o) (h : Writes shell stdin folder o path) :
    ∃ content, (run shell args stdin folder).stdout = [] ∧
      Stored shell folder path content (run shell args stdin folder) ∧
      ∀ args', shell.request args' folder = .options { o with output := none } →
        (run shell args' stdin folder).stdout = shell.echo content ∧ (run shell args' stdin folder).exit = 0 ∧
          (run shell args' stdin folder).folder = folder := by
  obtain ⟨text, d, hinput, hread⟩ := h.parsed
  obtain ⟨log, content, hdeliver⟩ := process_deliver hread h.check
  have hrun : run shell args stdin folder = deliver shell o folder log content :=
    (run_of_input hargs hinput).trans (hdeliver o.output folder)
  rw [hrun]
  obtain ⟨hstdout, hstored⟩ := deliver_output h.output h.named log content
  refine ⟨content, hstdout, hstored, fun args' hargs' => ?_⟩
  -- the same text is read, and only where its product goes is different
  have hprinted : run shell args' stdin folder = { stdout := shell.echo content, stderr := log, folder } :=
    ((run_of_input hargs' hinput).trans (hdeliver none folder)).trans
      (deliver_stdout (o := { o with output := none }) nofun log content)
  rw [hprinted]
  exact ⟨rfl, rfl, rfl⟩

/-- A run writes, or it leaves all files as they are. -/
theorem run_cases (shell : Shell) (args : List Text) (stdin : Text) (folder : Folder) :
    (∃ o path, shell.request args folder = .options o ∧ Writes shell stdin folder o path) ∨
      (run shell args stdin folder).folder = folder := by
  cases hargs : shell.request args folder with
  | stop exit stdout stderr =>
    right
    rw [run, hargs]
  | options o =>
    rcases run_of_options hargs with ⟨text, hinput, hrun⟩ | ⟨-, report, hrun⟩
    · cases hread : outcomeOf shell o text with
      | error errors =>
        obtain ⟨report, hprocess⟩ := process_error hread folder
        exact Or.inr (by rw [hrun, hprocess])
      | ok d =>
        cases hcheck : o.check with
        | true =>
          obtain ⟨log, hprocess⟩ := process_check hread hcheck folder
          exact Or.inr (by rw [hrun, hprocess])
        | false =>
          by_cases hpath : ∃ path, o.output = some path ∧ path ≠ []
          · obtain ⟨path, houtput, hnamed⟩ := hpath
            exact Or.inl ⟨o, path, rfl, houtput, hnamed, hcheck, text, d, hinput, hread⟩
          · obtain ⟨log, content, hdeliver⟩ := process_deliver hread hcheck
            have hplain : ∀ path, o.output = some path → path = [] := fun path houtput =>
              Decidable.not_not.1 fun hnamed => hpath ⟨path, houtput, hnamed⟩
            have hprinted := (hdeliver o.output folder).trans (deliver_stdout hplain log content)
            exact Or.inr (by rw [hrun, hprinted])
    · exact Or.inr (by rw [hrun])

end

/-! ### What stays -/

/-- What a run leaves as it is: all files but the one that the output setting names, and this one too unless the input
could be read and something was to be written.  Then nothing is printed, and the run succeeds with the whole text that
the same options print without an output, or fails with a part of it or nothing in the file. -/
structure Framed (shell : Shell) (args : List Text) (stdin : Text) (folder : Folder) : Prop where
  others : ∀ key, (∀ o path, shell.request args folder = .options o → Writes shell stdin folder o path →
      shell.locate folder path ≠ .ok key) →
    (run shell args stdin folder).folder.get? key = folder.get? key
  changed : (run shell args stdin folder).folder ≠ folder →
    ∃ o path, shell.request args folder = .options o ∧ Writes shell stdin folder o path
  delivered : ∀ o path, shell.request args folder = .options o → Writes shell stdin folder o path →
    ∃ content, (run shell args stdin folder).stdout = [] ∧
      Stored shell folder path content (run shell args stdin folder) ∧
      (∀ args', shell.request args' folder = .options { o with output := none } →
        (run shell args' stdin folder).stdout = shell.echo content ∧ (run shell args' stdin folder).exit = 0 ∧
          (run shell args' stdin folder).folder = folder) ∧
      ('\x1b' ∉ content → shell.echo content = content)
  refused : ∀ o text errors, shell.request args folder = .options o → inputText? shell o stdin folder = some text →
    outcomeOf shell o text = .error errors →
    ∃ report, run shell args stdin folder = { exit := 1, stderr := report, folder }

/-- A run writes nothing but the output file, and this one only with what it would print without it. -/
theorem framed_run {shell : Shell} (h : shell.PrintsPlain) (args : List Text) (stdin : Text) (folder : Folder) :
    Framed shell args stdin folder where
  others key hkey := by
    rcases run_cases shell args stdin folder with ⟨o, path, hargs, hwrites⟩ | hkeep
    · have hne : ∀ {key'}, shell.locate folder path = .ok key' → key ≠ key' := fun hlocate he =>
        hkey o path hargs hwrites (he ▸ hlocate)
      obtain ⟨content, -, hstored, -⟩ := run_of_writes hargs hwrites
      cases hstored with
      | whole hlocate _ _ hfiles => rw [hfiles, Keyed.get?_upsert, if_neg (hne hlocate)]
      | part hlocate _ _ hfiles => rw [hfiles, Keyed.get?_upsert, if_neg (hne hlocate)]
      | none _ _ hfiles => rw [hfiles]
    · rw [hkeep]
  changed hchange := (run_cases shell args stdin folder).resolve_right hchange
  delivered o path hargs hwrites := by
    obtain ⟨content, hstdout, hstored, hprinted⟩ := run_of_writes hargs hwrites
    exact ⟨content, hstdout, hstored, hprinted, h content⟩
  refused o text errors hargs hinput hread := by
    obtain ⟨report, hprocess⟩ := process_error hread folder
    exact ⟨report, (run_of_input hargs hinput).trans hprocess⟩

/-- A chart goes to a file, and without an output it is printed as the file has it. -/
theorem framed_run_plain : Shell.plain.PrintsPlain ∧
    Framed Shell.plain ["-o".toList, "out".toList] "graph LR\nA".toList [] ∧
    (run Shell.plain ["-o".toList, "out".toList] "graph LR\nA".toList []).folder =
      [("out".toList, (run Shell.plain [] "graph LR\nA".toList []).stdout)] := by
  refine ⟨Shell.printsPlain_plain, framed_run Shell.printsPlain_plain _ _ _, ?_⟩
  decide +kernel

/-- A file keeps the control sequence of a label, and the stream does not. -/
theorem run_output_control : ¬ ∀ args args' stdin folder o path, Shell.plain.request args folder = .options o →
    o.output = some path → Shell.plain.request args' folder = .options { o with output := none } →
    (run Shell.plain args stdin folder).exit = 0 →
    ∃ key, Shell.plain.locate folder path = .ok key ∧
      (run Shell.plain args stdin folder).folder.get? key = some (run Shell.plain args' stdin folder).stdout := by
  intro hall
  have hargs : Shell.plain.request ["-o".toList, "out".toList] [] = .options { output := some "out".toList } := by
    decide +kernel
  have hargs' : Shell.plain.request [] [] = .options {} := by decide +kernel
  have hrun : run Shell.plain ["-o".toList, "out".toList] "graph LR\nA[x\x1b[0m]".toList [] =
      { folder := [("out".toList, "flowchart LR\n    x__0m[\"x\x1b[0m\"]\n".toList)] } := by decide +kernel
  have hplain : run Shell.plain [] "graph LR\nA[x\x1b[0m]".toList [] =
      { stdout := "flowchart LR\n    x__0m[\"x\"]\n".toList, folder := [] } := by decide +kernel
  obtain ⟨key, hkey, hcontent⟩ := hall _ _ "graph LR\nA[x\x1b[0m]".toList _ _ _ hargs rfl hargs' (by rw [hrun])
  have hout : Shell.plain.locate [] "out".toList = .ok "out".toList := rfl
  rw [hout, Except.ok.injEq] at hkey
  rw [hrun, hplain, ← hkey] at hcontent
  exact absurd hcontent (by decide)

/-- Where a disk is full, the old content of the file is lost, and the run fails. -/
example :
    let full : Shell := { Shell.plain with stopped := fun _ _ _ => some (3, { report := "full".toList }) }
    let out := run full ["-o".toList, "out".toList] "erDiagram\nA".toList [("out".toList, "old".toList)]
    out.exit = 1 ∧ out.folder = [("out".toList, "erD".toList)] := by
  decide +kernel

end DiagramText.CommandLine

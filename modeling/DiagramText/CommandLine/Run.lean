import DiagramText.CommandLine.Shell
import DiagramText.Graph

/-!
# Running the command line

The input is read and then written back in its fixed form, or summed up, or only checked.  What comes of it is printed,
or goes to the output file if there is one.  Nothing is written unless the input could be read.
-/

namespace DiagramText.CommandLine

/-- The text with every line break as one character: a carriage return, alone or before a line break, is a line
break. -/
def unifyBreaks : Text → Text
  | [] => []
  | '\r' :: '\n' :: r => '\n' :: unifyBreaks r
  | '\r' :: r => '\n' :: unifyBreaks r
  | c :: r => c :: unifyBreaks r

/-- Lines, each with its line break. -/
def block (ls : List Text) : Text := ls.flatMap fun l => l ++ ['\n']

/-- A summary of the graph of a diagram. -/
def summary (dialect : Dialect) (g : Graph) : Text :=
  block <|
    ["type: ".toList ++ dialect.name,
      "nodes: ".toList ++ Text.ofNat g.nodeCount,
      "edges: ".toList ++ Text.ofNat g.linkCount,
      "acyclic: ".toList ++ if g.isAcyclic then "yes".toList else "no".toList] ++
    if g.isolated = [] then [] else ["isolated: ".toList ++ (", ".toList).intercalate g.isolated]

/-- What is to be printed for a diagram: nothing if it is only checked. -/
def rendered (o : Options) (dialect : Dialect) (d : Diagram) : Option Text :=
  if o.check then none
  else if o.stats then some (summary dialect (Graph.ofDiagram d))
  else some (block [d.write o.size])

/-- What comes of a text: the lines of the log, and what is to be printed or the errors. -/
structure Product where
  log : Text := []
  content : Except (List ParseError) (Option Text)

/-- What the options ask for, made of the text of the input.  Alarms are shown even if nothing is logged. -/
def produce (stack : Stack) (o : Options) (text : Text) : Product :=
  let dialect := o.dialect.getD (.detect text)
  let reading := dialect.read stack text
  { log := block <|
      if o.verbose then reading.notices.map fun n => n.render dialect.name
      else (reading.notices.filter Notice.isAlarm).map fun n => n.message dialect.name
    content := reading.outcome.map (rendered o dialect) }

/-- The end of a run. -/
structure Outcome where
  exit : Nat := 0
  stdout : Text := []
  stderr : Text := []
  folder : Folder
deriving DecidableEq, Repr

/-- What is reported of trouble with a path that was opened for `purpose`. -/
def troubleReport (shell : Shell) (purpose path : Text) (t : Trouble) : Text :=
  if t.known then
    shell.echo (block ["error: cannot ".toList ++ purpose ++ " '".toList ++ path ++ "': ".toList ++ t.report])
  else t.report

/-- The report of a text that cannot be read. -/
def errorReport (shell : Shell) (errors : List ParseError) : Text :=
  ("parse error:".toList :: errors.map fun e => "  ".toList ++ e.render).flatMap fun l => shell.echo (block [l])

/-- Writes a text to a path; `log` has been printed to the error stream.  The file is empty once it is open, so that of
its old content nothing is left, however far the writing comes. -/
def store (shell : Shell) (folder : Folder) (log path text : Text) : Outcome :=
  match shell.locate folder path with
  | .error t => { exit := 1, stderr := log ++ troubleReport shell "write".toList path t, folder }
  | .ok key =>
    match shell.stopped folder key text with
    | none => { stderr := log, folder := folder.upsert key fun _ => text }
    | some (n, t) =>
      { exit := 1
        stderr := log ++ troubleReport shell "write".toList path t
        folder := folder.upsert key fun _ => text.take n }

/-- Prints a text, or writes it to the output file as it is. -/
def deliver (shell : Shell) (o : Options) (folder : Folder) (log text : Text) : Outcome :=
  match o.output.filter (· ≠ []) with
  | none => { stdout := shell.echo text, stderr := log, folder }
  | some path => store shell folder log path text

/-- Does what the options ask for with the text of the input. -/
def process (shell : Shell) (o : Options) (folder : Folder) (text : Text) : Outcome :=
  let product := produce shell.stack o text
  match product.content with
  | .error errors => { exit := 1, stderr := product.log ++ errorReport shell errors, folder }
  | .ok none => { stderr := product.log, folder }
  | .ok (some text) => deliver shell o folder product.log text

/-- Runs the command line in a folder.  Without an input path the input is `stdin`. -/
def run (shell : Shell) (args : List Text) (stdin : Text) (folder : Folder) : Outcome :=
  match shell.request args folder with
  | .stop exit stdout stderr => { exit, stdout, stderr, folder }
  | .options o =>
    match o.input.filter (· ≠ []) with
    | none => process shell o folder (unifyBreaks stdin)
    | some path =>
      match shell.read folder path with
      | .ok content => process shell o folder (unifyBreaks content)
      | .error t => { exit := 1, stderr := troubleReport shell "read".toList path t, folder }

end DiagramText.CommandLine

import DiagramText.CommandLine.Folder
import DiagramText.CommandLine.Run

/-!
# The program

Reads the input, has it processed, and prints what comes of it.  All decisions are made in `CommandLine`; here they
are only carried out.
-/

namespace DiagramText

open CommandLine

/-- Everything that a stream still holds. -/
partial def readAll (stream : IO.FS.Stream) (read : String) : IO String := do
  let line ← stream.getLine
  if line.isEmpty then return read else readAll stream (read ++ line)

/-- The number that the operating system gives for an error with a path. -/
def errorNumber? : IO.Error → Option UInt32
  | .noFileOrDirectory _ n _ | .inappropriateType _ n _ | .invalidArgument _ n _ | .resourceExhausted _ n _
  | .resourceVanished n _ | .otherError n _ => some n
  | _ => none

/-- The fault of a path that the operating system found. -/
def faultOf? (e : IO.Error) : Option PathFault :=
  match errorNumber? e with
  | some 2 => some .missing
  | some 20 => some .notFolder
  | some 21 => some .isFolder
  | some 36 => some .tooLong
  | _ => none

/-- The trouble with a path that the operating system found. -/
def troubleOf (path : Text) (e : IO.Error) : Trouble :=
  match faultOf? e with
  | some f => f.trouble path
  | none => { report := (toString e).toList }

/-- The surroundings of a run whose input is read with the result `content`; there is one file, the output, and its key
is empty. -/
def surroundings (o : Options) (content : Except Trouble Text) : Shell :=
  { Shell.plain with
    request := fun _ _ => .options o
    read := fun _ _ => content
    locate := fun _ _ => .ok [] }

/-- Prints what comes of a run, and puts the content of its file into the output file. -/
def carryOut (o : Options) (shell : Shell) (outcome : Outcome) : IO UInt32 := do
  let stderr ← IO.getStderr
  stderr.putStr (String.ofList outcome.stderr)
  (← IO.getStdout).putStr (String.ofList outcome.stdout)
  match outcome.folder, o.output with
  | [(_, content)], some path =>
    try
      IO.FS.writeFile (String.ofList path) (String.ofList content)
      return outcome.exit.toUInt32
    catch e =>
      stderr.putStr (String.ofList (troubleReport shell "write".toList path (troubleOf path e)))
      return 1
  | _, _ => return outcome.exit.toUInt32

/-- Says how the program is used. -/
def stopWithUsage : IO UInt32 := do
  (← IO.getStderr).putStr (String.ofList Arguments.usage)
  return 2

/-- Runs the program with its options. -/
def runWith (o : Options) : IO UInt32 := do
  match o.input with
  | none =>
    let stdin ← readAll (← IO.getStdin) ""
    let shell := surroundings o (.ok [])
    carryOut o shell (run shell [] stdin.toList [])
  | some path =>
    match ← (IO.FS.readFile (String.ofList path)).toBaseIO with
    | .ok text =>
      let shell := surroundings o (.ok text.toList)
      carryOut o shell (run shell [] [] [])
    | .error e =>
      if faultOf? e = some .isFolder then
        let shell := surroundings o (.error (troubleOf path e))
        carryOut o shell (run shell [] [] [])
      else stopWithUsage

end DiagramText

def main (args : List String) : IO UInt32 := do
  match DiagramText.CommandLine.Arguments.request (args.map String.toList) with
  | .options o => DiagramText.runWith o
  | .stop exit stdout stderr =>
    (← IO.getStdout).putStr (String.ofList stdout)
    (← IO.getStderr).putStr (String.ofList stderr)
    return exit.toUInt32

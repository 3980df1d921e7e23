import DiagramText.Diagram

/-!
# The surroundings of the command line

What the command line finds around it: how its arguments are understood, how a text looks on a stream, and what becomes
of files that are opened, read and written.  All this belongs to other programs and may be one way or another, so it is
handed over as a `Shell`.
-/

namespace DiagramText.CommandLine

/-- What the arguments can ask for. -/
structure Options where
  input : Option Text := none
  dialect : Option Dialect := none
  size : Int := 4
  check : Bool := false
  stats : Bool := false
  output : Option Text := none
  verbose : Bool := false
deriving DecidableEq, Repr

/-- What comes of the arguments: options, or the end of the run, be it that help was asked for or that the arguments
cannot be used. -/
inductive Request where
  | options (o : Options)
  | stop (exit : Nat) (stdout stderr : Text)
deriving DecidableEq, Repr

/-- Files with their contents. -/
abbrev Folder := Keyed Text Text

/-- Why something went wrong with a file, and whether the program knows this kind of trouble. -/
structure Trouble where
  report : Text
  known : Bool := true
deriving DecidableEq, Repr

/-- The surroundings of a run. -/
structure Shell where
  /-- What is asked for by arguments that are given in a folder. -/
  request : List Text → Folder → Request
  /-- The text as it is printed to a stream. -/
  echo : Text → Text
  /-- The content of the file that a path leads to. -/
  read : Folder → Text → Except Trouble Text
  /-- The file that a path leads to when it is opened for writing. -/
  locate : Folder → Text → Except Trouble Text
  /-- If a content does not get into a file as a whole, how many of its characters do, and why no more. -/
  stopped : Folder → Text → Text → Option (Nat × Trouble)
  /-- The stack of calls. -/
  stack : Stack := default

end DiagramText.CommandLine

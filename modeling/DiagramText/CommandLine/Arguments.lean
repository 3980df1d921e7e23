import DiagramText.CommandLine.Shell
import DiagramText.Text.Numeral

/-!
# Arguments of the command line

Arguments are options or the one input path, in any order; behind `--` there are no options.  A flag has a long and
perhaps a short name.  A setting takes a value: behind `=` or as the next argument for a long name, as the rest of the
argument or the next argument for a short one.  Short names may be put together.  Of several values of one setting the
last one counts.
-/

namespace DiagramText.CommandLine

inductive Flag where
  | check
  | stats
  | verbose
  | help
deriving DecidableEq, Repr

inductive Setting where
  | dialect
  | indent
  | output
deriving DecidableEq, Repr

/-- A flag or a setting. -/
inductive Opt where
  | flag (f : Flag)
  | setting (s : Setting)
deriving DecidableEq, Repr

/-- The option of a long name. -/
def ofLong? (name : Text) : Option Opt :=
  [("--check".toList, .flag .check), ("--stats".toList, .flag .stats), ("--verbose".toList, .flag .verbose),
    ("--help".toList, .flag .help), ("--type".toList, .setting .dialect), ("--indent".toList, .setting .indent),
    ("--output".toList, .setting .output)].lookup name

/-- The option of a short name. -/
def ofShort? (c : Char) : Option Opt :=
  [('v', .flag .verbose), ('t', .setting .dialect), ('i', .setting .indent), ('o', .setting .output)].lookup c

/-- The arguments sorted, before their values are looked at. -/
structure Arguments where
  flags : List Flag := []
  settings : List (Setting × Text) := []
  paths : List Text := []
deriving DecidableEq, Repr

namespace Arguments

def addFlag (a : Arguments) (f : Flag) : Arguments := { a with flags := a.flags ++ [f] }

def addSetting (a : Arguments) (s : Setting) (value : Text) : Arguments :=
  { a with settings := a.settings ++ [(s, value)] }

def addPaths (a : Arguments) (paths : List Text) : Arguments := { a with paths := a.paths ++ paths }

/-- The last value of a setting. -/
def value? (a : Arguments) (s : Setting) : Option Text := (a.settings.reverse.lookup s)

/-- Adds the short options of one argument.  A setting at its end that has no value yet is given back. -/
def addShort (a : Arguments) : Text → Option (Arguments × Option Setting)
  | [] => some (a, none)
  | c :: r =>
    match ofShort? c with
    | none => none
    | some (.flag f) => (a.addFlag f).addShort r
    | some (.setting s) => if r = [] then some (a, some s) else some (a.addSetting s r, none)

/-- Adds a long option. -/
def addLong (a : Arguments) (arg : Text) : Option (Arguments × Option Setting) :=
  let name := arg.takeWhile (· != '=')
  let value? := (arg.drop name.length).tail?
  match ofLong? name, value? with
  | none, _ => none
  | some (.flag f), none => some (a.addFlag f, none)
  | some (.flag _), some _ => none
  | some (.setting s), some value => some (a.addSetting s value, none)
  | some (.setting s), none => some (a, some s)

/-- Adds an argument, which may need the next one as the value of a setting. -/
def add (a : Arguments) : Text → Option (Arguments × Option Setting)
  | '-' :: '-' :: name => a.addLong ('-' :: '-' :: name)
  | '-' :: c :: r => a.addShort (c :: r)
  | path => some (a.addPaths [path], none)

/-- Sorts a list of arguments; `none` if an option is unknown or a value is missing or out of place. -/
def sort (a : Arguments) : List Text → Option Arguments
  | [] => some a
  | arg :: args =>
    if arg = "--".toList then some (a.addPaths args)
    else match a.add arg with
      | none => none
      | some (a, none) => a.sort args
      | some (a, some s) =>
        match args with
        | [] => none
        | value :: args => (a.addSetting s value).sort args

end Arguments

namespace Arguments

/-- The dialect that a setting names. -/
def dialectOf? : Option Text → Option (Option Dialect)
  | none => some none
  | some name => (Dialect.ofName? name).map some

/-- The indentation that a setting gives: a whole number that is not negative. -/
def sizeOf? : Option Text → Option Int
  | none => some 4
  | some numeral => (Text.integer? numeral).filter (0 ≤ ·)

/-- The one path of a list of paths, if there is any. -/
def pathOf? : List Text → Option (Option Text)
  | [] => some none
  | [path] => some (some path)
  | _ => none

/-- The options that the arguments give; `none` if a value cannot be used. -/
def options? (a : Arguments) : Option Options :=
  match pathOf? a.paths, dialectOf? (a.value? .dialect), sizeOf? (a.value? .indent) with
  | some input, some dialect, some size =>
    some
      { input, dialect, size
        check := a.flags.contains .check
        stats := a.flags.contains .stats
        verbose := a.flags.contains .verbose
        output := a.value? .output }
  | _, _, _ => none

/-- How the program is used. -/
def usage : Text :=
  "usage: [-t er|flowchart|sequence] [-i SIZE] [--check] [--stats] [-o FILE] [-v] [--help] [INPUT]\n".toList

/-- What a list of arguments asks for.  Help is given before the values are looked at. -/
def request (args : List Text) : Request :=
  match ({} : Arguments).sort args with
  | none => .stop 2 [] usage
  | some a =>
    if a.flags.contains .help then .stop 0 usage []
    else match a.options? with
      | some o => .options o
      | none => .stop 2 [] usage

end Arguments

end DiagramText.CommandLine

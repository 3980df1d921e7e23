import DiagramText.CommandLine.Arguments
import DiagramText.Text.Control
import DiagramText.Text.Literal

/-!
# A working folder

Surroundings in which everything goes well that can: a folder, whose files are all the files there are, and streams that
are no terminals.  A path is a list of names with slashes between them: `.` stays in a folder, `..` goes to the one
above, and any other name leads to a folder if there is a file in it.
-/

namespace DiagramText.CommandLine

/-- Why a path cannot be opened. -/
inductive PathFault where
  /-- A name on the way leads nowhere. -/
  | missing
  /-- The path goes on behind a file. -/
  | notFolder
  /-- The path leads to a folder. -/
  | isFolder
  /-- A slash ends the path, so that a file cannot be made there. -/
  | folderOnly
  /-- The path or one of its names is too long. -/
  | tooLong
deriving DecidableEq, Repr

/-- The number and the wording of the reason. -/
def PathFault.reason : PathFault → Text
  | .missing => "[Errno 2] No such file or directory".toList
  | .notFolder => "[Errno 20] Not a directory".toList
  | .isFolder | .folderOnly => "[Errno 21] Is a directory".toList
  | .tooLong => "[Errno 36] File name too long".toList

/-- The reason for a path as it is reported. -/
def PathFault.trouble (path : Text) (f : PathFault) : Trouble :=
  { report := f.reason ++ ": ".toList ++ Text.literal path }

/-- A name has at most 255 bytes. -/
def isLongName (name : Text) : Bool := 255 < Text.utf8Size name

/-- A path has less than 4096 bytes. -/
def isLongPath (path : Text) : Bool := 4096 ≤ Text.utf8Size path

/-- A name that leads from a folder to a folder. -/
def isDots (name : Text) : Bool := name == ".".toList || name == "..".toList

/-- The names along a path. -/
def names (path : Text) : List Text := (path.splitOn '/').filter (· ≠ [])

/-- The way to a folder: from the root or from the working folder, with the last name first. -/
structure Way where
  fromRoot : Bool := false
  names : List Text := []

namespace Way

/-- The way to the folder above; there is none above the root. -/
def above (way : Way) : Way :=
  match way.names with
  | [] => if way.fromRoot then way else { way with names := ["..".toList] }
  | name :: rest => { way with names := if name = "..".toList then "..".toList :: name :: rest else rest }

/-- The key of the file with this name at the end of the way: the shortest path to it. -/
def key (way : Way) (name : Text) : Text :=
  (if way.fromRoot then ['/'] else []) ++ ("/".toList).intercalate (name :: way.names).reverse

end Way

namespace Folder

/-- Whether there is a file somewhere in the folder with this name at the end of the way. -/
def hasFolder (folder : Folder) (way : Way) (name : Text) : Bool :=
  folder.keys.any fun key => (way.key name ++ ['/']).isPrefixOf key

/-- The way to the folder that names lead to. -/
def enter (folder : Folder) (way : Way) : List Text → Except PathFault Way
  | [] => .ok way
  | name :: rest =>
    if name = ".".toList then enter folder way rest
    else if name = "..".toList then enter folder way.above rest
    else if isLongName name then .error .tooLong
    else if (folder.get? (way.key name)).isSome then .error .notFolder
    else if hasFolder folder way name then enter folder { way with names := name :: way.names } rest
    else .error .missing

/-- The key of the file that a path leads to, whether there is such a file or not. -/
def locate (folder : Folder) (path : Text) : Except PathFault Text :=
  if path = [] then .error .missing
  else if isLongPath path then .error .tooLong
  else match enter folder { fromRoot := path.head? = some '/' } (names path).dropLast with
    | .error f => .error f
    | .ok way =>
      match (names path).getLast? with
      | none => .error .isFolder
      | some name =>
        if isDots name then .error .isFolder
        else if isLongName name then .error .tooLong
        else if hasFolder folder way name then .error .isFolder
        else if path.getLast? = some '/' then .error .folderOnly
        else .ok (way.key name)

/-- The content of the file that a path leads to. -/
def read (folder : Folder) (path : Text) : Except PathFault Text :=
  match locate folder path with
  | .error f => .error f
  | .ok key =>
    match folder.get? key with
    | some content => .ok content
    | none => .error .missing

/-- The files of the working folder and of the folders in it. -/
def own (folder : Folder) : Folder :=
  folder.filter fun file => !("../".toList.isPrefixOf file.1 || ['/'].isPrefixOf file.1)

end Folder

/-- An input path that leads to no file and no folder cannot be used. -/
def requestIn (args : List Text) (folder : Folder) : Request :=
  match Arguments.request args with
  | .options o =>
    match o.input.map (Folder.read folder) with
    | none | some (.ok _) | some (.error .isFolder) => .options o
    | some (.error _) => .stop 2 [] Arguments.usage
  | stop => stop

/-- The surroundings in which the files of a folder are all there is. -/
def Shell.plain : Shell where
  request := requestIn
  echo := Text.withoutControls
  read folder path := (Folder.read folder path).mapError (PathFault.trouble path)
  locate folder path := (Folder.locate folder path).mapError (PathFault.trouble path)
  stopped _ _ _ := none

end DiagramText.CommandLine

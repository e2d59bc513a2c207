/-!
# File trees

Files and directories as a value, so that a run of the program is a function of the files it finds.
A path is followed name by name from the root or from the current directory; every name but the last
has to stand in a directory. Writing creates a file or replaces its content.
-/

namespace ValueRange

/-- Why a path cannot be read or written. -/
inductive FileFault where
  /-- Nothing stands at the path, or at a part of it. -/
  | missing
  /-- A part of the path that has to be a directory is a file. -/
  | notDirectory
  /-- A directory stands where a file is needed. -/
  | directory
  /-- A name or the whole path has too many bytes. -/
  | nameTooLong
  /-- The file does not hold text. -/
  | notText
  | other (reason : String)
deriving DecidableEq, Repr

/-- What is wrong with a path, in words. -/
def FileFault.reason : FileFault → String
  | missing => "No such file or directory (os error 2)"
  | notDirectory => "Not a directory (os error 20)"
  | directory => "Is a directory (os error 21)"
  | nameTooLong => "File name too long (os error 36)"
  | notText => "stream did not contain valid UTF-8"
  | other reason => reason

/-- What stands at a place of a file tree. -/
inductive FileEntry where
  | file (content : ByteArray)
  | directory

/-- Files and directories by their places, a place being the names on the way from the root. -/
structure FileTree where
  /-- The directory that relative paths start from. -/
  current : List String
  /-- What stands where; the first entry of a place counts. -/
  entries : List (List String × FileEntry)

namespace FileTree

/-- Most bytes in a name. -/
def maxName : Nat := 255

/-- Most bytes in a path. -/
def maxPath : Nat := 4095

/-- The entry at a place; the root is a directory. -/
def find? (tree : FileTree) (place : List String) : Option FileEntry :=
  if place = [] then some .directory
  else (tree.entries.find? fun entry => entry.1 = place).map Prod.snd

/-- Follow names from a place. What stands at the end is not looked at. -/
def walk (tree : FileTree) (place : List String) : List String → Except FileFault (List String)
  | [] => .ok place
  | name :: names =>
    match tree.find? place with
    | none => .error .missing
    | some (.file _) => .error .notDirectory
    | some .directory =>
      if name = "." then tree.walk place names
      else if name = ".." then tree.walk place.dropLast names
      else if maxName < name.utf8ByteSize then .error .nameTooLong
      else tree.walk (place ++ [name]) names

/-- The names in a path. -/
def names (path : String) : List String := (path.splitOn "/").filter fun name => !name.isEmpty

/-- Whether a path starts at the root. -/
def absolute (path : String) : Bool := path.toList.head? = some '/'

/-- Whether a path ends in a slash and so can only mean a directory. -/
def slashed (path : String) : Bool := path.toList.getLast? = some '/'

/-- The place that a path means. -/
def resolve (tree : FileTree) (path : String) : Except FileFault (List String) :=
  if path.isEmpty then .error .missing
  else if maxPath < path.utf8ByteSize then .error .nameTooLong
  else tree.walk (if absolute path then [] else tree.current) (names path)

/-- The content of the file at a path. -/
def read (tree : FileTree) (path : String) : Except FileFault ByteArray := do
  let place ← tree.resolve path
  match tree.find? place with
  | none => throw .missing
  | some .directory => throw .directory
  | some (.file content) => if slashed path then throw .notDirectory else pure content

/-- The tree with a file of the given content at a path. -/
def write (tree : FileTree) (path : String) (content : ByteArray) : Except FileFault FileTree := do
  let place ← tree.resolve path
  match tree.find? place with
  | some .directory => throw .directory
  | _ =>
    if slashed path then throw .directory
    else pure { tree with entries := (place, .file content) :: tree.entries }

end FileTree

end ValueRange

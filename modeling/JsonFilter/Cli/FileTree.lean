/-!
# Files by their paths

A command names the files that it reads by paths.  A `FileTree` holds the texts of files by the names
that lead to them from the root; the directories are what lies on the way to a file or to the working
directory.  `FileTree.read` follows a path name by name, so that a path over something that is missing
or over a file leads nowhere, even if a later `..` takes it back.
-/

namespace JsonFilter.Cli

/-- Why a file cannot be read. -/
inductive FileFault where
  /-- Nothing has the name. -/
  | missing
  /-- The path goes on behind a file. -/
  | notDirectory
  /-- The path ends at a directory. -/
  | isDirectory
  | nameTooLong
  | denied
  | notText
  /-- Something else, in the words of the operating system. -/
  | other (text : String)
deriving DecidableEq, Repr

/-- The text of a fault, with the number that the operating system has for it. -/
def FileFault.message : FileFault → String
  | .missing => "No such file or directory (os error 2)"
  | .notDirectory => "Not a directory (os error 20)"
  | .isDirectory => "Is a directory (os error 21)"
  | .nameTooLong => "File name too long (os error 36)"
  | .denied => "Permission denied (os error 13)"
  | .notText => "stream did not contain valid UTF-8"
  | .other text => text

/-- Files by their names from the root. -/
structure FileTree where
  workingDirectory : List String
  files : List (List String × String)
deriving DecidableEq, Repr

namespace FileTree

/-- What a path leads to. -/
inductive Node where
  | directory (names : List String)
  | file (text : String)
deriving DecidableEq, Repr

/-- Whether names lead to a directory. -/
def isDirectory (t : FileTree) (names : List String) : Bool :=
  names.isPrefixOf t.workingDirectory || t.files.any fun f => names.isPrefixOf f.1

/-- What is found at the names. -/
def find (t : FileTree) (names : List String) : Except FileFault Node :=
  match t.files.lookup names with
  | some text => .ok (.file text)
  | none => if t.isDirectory names then .ok (.directory names) else .error .missing

/-- The most bytes of a name. -/
def maxNameSize : Nat := 255

/-- The most bytes of a path. -/
def maxPathSize : Nat := 4095

/-- Follows one name of a path; two of them have a meaning of their own, and so has the empty one that
a doubled or a last slash leaves. -/
def follow (t : FileTree) : Node → String → Except FileFault Node
  | .file _, _ => .error .notDirectory
  | .directory names, name =>
    if name = "" || name = "." then .ok (.directory names)
    else if name = ".." then .ok (.directory names.dropLast)
    else if maxNameSize < name.utf8ByteSize then .error .nameTooLong
    else t.find (names ++ [name])

/-- Where a path starts. -/
def start (t : FileTree) (path : String) : Node :=
  if path.startsWith "/" then .directory [] else .directory t.workingDirectory

/-- Reads the file of a path. -/
def read (t : FileTree) (path : String) : Except FileFault String := do
  if maxPathSize < path.utf8ByteSize then throw .nameTooLong
  match ← (path.splitOn "/").foldlM t.follow (t.start path) with
  | .file text => return text
  | .directory _ => throw .isDirectory

end FileTree
end JsonFilter.Cli

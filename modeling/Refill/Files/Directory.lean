import Refill.Files.Path

/-!
# Directories

A directory is the list of its entries, in the order in which it happens to list them.
-/

namespace Refill

/-- The way from the root to an entry. -/
abbrev Location : Type := List Name

/-- A list of files and of directories with what is inside of them. -/
inductive Directory where
  | empty
  | file (name : Name) (content : ByteArray) (rest : Directory)
  | subdirectory (name : Name) (inside : Directory) (rest : Directory)
  deriving DecidableEq

inductive Entry where
  | file (content : ByteArray)
  | directory (inside : Directory)

namespace Entry

def consAs (entry : Entry) (name : Name) (rest : Directory) : Directory :=
  match entry with
  | file content => .file name content rest
  | directory inside => .subdirectory name inside rest

def isDirectory : Entry → Bool
  | file _ => false
  | directory _ => true

end Entry

namespace Directory

def entry? (name : Name) : Directory → Option Entry
  | empty => none
  | file other content rest => if other = name then some (.file content) else rest.entry? name
  | subdirectory other inside rest =>
      if other = name then some (.directory inside) else rest.entry? name

/-- The directory with the entry under this name, in place of one that has it. -/
def put (name : Name) (entry : Entry) : Directory → Directory
  | empty => entry.consAs name empty
  | file other content rest =>
      if other = name then entry.consAs name rest else file other content (rest.put name entry)
  | subdirectory other inside rest =>
      if other = name then entry.consAs name rest
      else subdirectory other inside (rest.put name entry)

def lookup (directory : Directory) : Location → Option Entry
  | [] => some (.directory directory)
  | name :: names =>
      match directory.entry? name with
      | some (.directory inside) => inside.lookup names
      | some (.file content) => if names.isEmpty then some (.file content) else none
      | none => none

/-- The directory with the entry at the end of the way, if there is a directory to hold it. -/
def insert (directory : Directory) (entry : Entry) : Location → Directory
  | [] => directory
  | [name] => directory.put name entry
  | name :: names =>
      match directory.entry? name with
      | some (.directory inside) => directory.put name (.directory (inside.insert entry names))
      | _ => directory

def files : Directory → List (Location × ByteArray)
  | empty => []
  | file name content rest => ([name], content) :: rest.files
  | subdirectory name inside rest =>
      (inside.files.map fun (names, content) => (name :: names, content)) ++ rest.files

/-- The files of the later directory that the earlier one has not, or has otherwise. -/
def changes (earlier later : Directory) : List (Location × ByteArray) :=
  later.files.filter fun file => !earlier.files.contains file

/-- The way to an entry that counts as a file, if it is a Markdown file. -/
def ownWay (name : Name) : List Location :=
  if name.isMarkdown then [[name]] else []

/-- The ways to the Markdown files that a listing at the path shows, at any depth. A directory whose
path is too long cannot be told from a file. -/
def markdownWays (path : Path) : Directory → List Location
  | empty => []
  | file name _ rest => ownWay name ++ rest.markdownWays path
  | subdirectory name inside rest =>
      (if (path.join name).isTooLong then ownWay name
        else (inside.markdownWays (path.join name)).map (name :: ·)) ++ rest.markdownWays path

/-- The same, sorted name by name. -/
def markdownFiles (path : Path) (directory : Directory) : List Location :=
  (directory.markdownWays path).mergeSort
    fun first second => !second.lex first fun name other => name.lex other

end Directory

end Refill

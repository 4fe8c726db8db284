import Refill.Files.Directory

/-!
# File systems

A file system is its root directory and the directory where relative paths start.
Reading and writing follow the path step by step; each step needs a directory to
start from.
-/

namespace Refill

inductive Fault where
  | notFound
  | alreadyExists
  | notDirectory
  | isDirectory
  | nameTooLong
  | nulInName
  /-- The content is not UTF-8. -/
  | notText
  deriving DecidableEq, Repr

namespace Fault

def message : Fault → String
  | notFound => "No such file or directory (os error 2)"
  | alreadyExists => "File exists (os error 17)"
  | notDirectory => "Not a directory (os error 20)"
  | isDirectory => "Is a directory (os error 21)"
  | nameTooLong => "File name too long (os error 36)"
  | nulInName => "file name contained an unexpected NUL byte"
  | notText => "stream did not contain valid UTF-8"

end Fault

/-- The characters that the bytes encode; none if they are not UTF-8. -/
def decodeText? (content : ByteArray) : Option (List Char) :=
  (String.fromUTF8? content).map String.toList

def encodeText (text : List Char) : ByteArray :=
  (String.ofList text).toUTF8

structure FileSystem where
  root : Directory
  workingDirectory : Location

namespace FileSystem

open Refill.Path (Step)

/-- The location to which the steps lead from another one. -/
def walk (root : Directory) : Location → List Step → Except Fault Location
  | origin, [] => .ok origin
  | origin, step :: steps =>
      match root.lookup origin with
      | none => .error .notFound
      | some (.file _) => .error .notDirectory
      | some (.directory inside) =>
          match step with
          | .stay => walk root origin steps
          | .up => walk root origin.dropLast steps
          | .enter name =>
              if name.isTooLong then .error .nameTooLong
              else
                match inside.entry? name with
                | none => .error .notFound
                | some _ => walk root (origin ++ [name]) steps

def start (files : FileSystem) (path : Path) : Location :=
  if path.isAbsolute then [] else files.workingDirectory

/-- Checks what no directory has to be known for. -/
def checkPath (path : Path) : Except Fault Unit :=
  if path.hasNul then .error .nulInName
  else if path.isEmpty then .error .notFound
  else if path.isTooLong then .error .nameTooLong
  else .ok ()

/-- What the path leads to. With a slash at its end it has to lead to a directory. -/
def entry (files : FileSystem) (path : Path) : Except Fault Entry := do
  checkPath path
  let location ← walk files.root (files.start path) path.steps
  match files.root.lookup location with
  | none => .error .notFound
  | some (.file content) => if path.endsInSlash then .error .notDirectory else .ok (.file content)
  | some (.directory inside) => .ok (.directory inside)

def leadsSomewhere (files : FileSystem) (path : Path) : Bool :=
  (files.entry path).toOption.isSome

def readText (files : FileSystem) (path : Path) : Except Fault (List Char) := do
  match ← files.entry path with
  | .directory _ => .error .isDirectory
  | .file content =>
      match decodeText? content with
      | none => .error .notText
      | some text => .ok text

/-- The location of the file that is to be written, which need not exist yet. -/
def target (files : FileSystem) (path : Path) : Except Fault Location := do
  checkPath path
  match path.steps.getLast? with
  | some (.enter name) =>
      let parent ← walk files.root (files.start path) path.steps.dropLast
      match files.root.lookup parent with
      | none => .error .notFound
      | some (.file _) => .error .notDirectory
      | some (.directory inside) =>
          if path.endsInSlash then .error .isDirectory
          else if name.isTooLong then .error .nameTooLong
          else if (inside.entry? name).any Entry.isDirectory then .error .isDirectory
          else .ok (parent ++ [name])
  | _ =>
      let _ ← walk files.root (files.start path) path.steps
      .error .isDirectory

/-- The file system with this content in the file, which is created if it is missing. -/
def write (files : FileSystem) (path : Path) (content : ByteArray) : Except Fault FileSystem := do
  let location ← files.target path
  return { files with root := files.root.insert (.file content) location }

/-- The root with every directory on the way created that is missing. -/
def createOnWay (root : Directory) : Location → List Step → Except Fault Directory
  | _, [] => .ok root
  | origin, step :: steps =>
      match root.lookup origin with
      | none => .error .notFound
      | some (.file _) => .error .notDirectory
      | some (.directory inside) =>
          match step with
          | .stay => createOnWay root origin steps
          | .up => createOnWay root origin.dropLast steps
          | .enter name =>
              if name.contains '\x00' then .error .nulInName
              else if name.isTooLong then .error .nameTooLong
              else
                match inside.entry? name with
                | none =>
                    createOnWay (root.insert (.directory .empty) (origin ++ [name]))
                      (origin ++ [name]) steps
                | some (.file _) =>
                    .error (if steps.isEmpty then .alreadyExists else .notDirectory)
                | some (.directory _) => createOnWay root (origin ++ [name]) steps

/-- The file system with the directory of the path, and all directories above. -/
def createDirectory (files : FileSystem) (path : Path) : Except Fault FileSystem := do
  let root ← createOnWay files.root (files.start path) (Path.dropStays path.steps)
  return { files with root }

/-- The file system with the directory that holds what the path leads to. -/
def createParent (files : FileSystem) (path : Path) : Except Fault FileSystem := do
  let root ← createOnWay files.root (files.start path) path.parentSteps
  return { files with root }

end FileSystem

end Refill

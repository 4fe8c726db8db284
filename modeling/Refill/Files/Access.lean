import Refill.Files.FileSystem

/-!
# Markdown files

The files that a list of paths stands for: a file stands for itself, whatever its name,
and a directory for the Markdown files at any depth inside, as far as their paths can be
followed.
-/

namespace Refill

/-- A file that cannot be used, under the path that was given for it. -/
inductive AccessError where
  | missing (path : Path)
  | fault (path : Path) (fault : Fault)
  deriving DecidableEq, Repr

namespace AccessError

def message : AccessError → String
  | missing path => "File not found: " ++ String.ofList path
  | fault path reason => "IO error on " ++ String.ofList path ++ ": " ++ reason.message

end AccessError

namespace FileSystem

def textAt (files : FileSystem) (path : Path) : Except AccessError (List Char) :=
  if files.leadsSomewhere path then (files.readText path).mapError (.fault path)
  else .error (.missing path)

def setText (files : FileSystem) (path : Path) (text : List Char) :
    Except AccessError FileSystem :=
  (files.write path (encodeText text)).mapError (.fault path)

/-- The files that one path stands for. -/
def expandPath (files : FileSystem) (path : Path) : Except AccessError (List Path) :=
  match files.entry path with
  | .error _ => .error (.missing path)
  | .ok (.file _) => .ok [path]
  | .ok (.directory inside) => .ok ((inside.markdownFiles path).map path.descend)

/-- The files that the paths stand for, in the order of the paths. -/
def collect (files : FileSystem) : List Path → Except AccessError (List Path)
  | [] => .ok []
  | path :: paths => do
      let found ← files.expandPath path
      let later ← files.collect paths
      return found ++ later

end FileSystem

end Refill

import Refill.Files.FileSystem
import Refill.Glob
import Refill.PathExpansion
import Refill.Toml.Document

/-!
# Settings

How wide lines may be, and which files are left alone. The settings are kept in a TOML
file, where a missing key stands for its default and unknown keys are ignored. What is
written is read back as it was, unless no line could hold anything.
-/

namespace Refill

structure Settings where
  lineLength : Nat := 88
  /-- The patterns of the paths that are left alone. -/
  exclude : List (List Char) := []
  deriving DecidableEq, Repr

inductive SettingsError where
  | unreadable (path : Path) (fault : Fault)
  | malformed (path : Path)
  | zeroLineLength (path : Path)
  deriving DecidableEq, Repr

namespace SettingsError

def message : SettingsError → String
  | unreadable path fault =>
      "Failed to read config file at " ++ String.ofList path ++ ": " ++ fault.message
  | malformed path => "Failed to parse config file at " ++ String.ofList path
  | zeroLineLength path =>
      "Invalid line_length in " ++ String.ofList path ++ ": must be at least 1"

end SettingsError

namespace Settings

open Toml (Key Value Table)

def isExcluded (settings : Settings) (path : Path) : Bool :=
  settings.exclude.any (Glob.fits · path)

/-! ## Reading -/

def lineLengthKey : Key := "line_length".toList

def excludeKey : Key := "exclude".toList

/-- The line lengths that can be held: the unsigned numbers of 64 bits. -/
def lineLengthBound : Nat := Nat.pow 2 64

def lineLengthOf? (table : Table) : Option Nat :=
  match table.value? lineLengthKey with
  | none => some ({} : Settings).lineLength
  | some (.integer number) =>
      if 0 ≤ number && number < lineLengthBound then some number.toNat else none
  | some _ => none

def stringOf? : Value → Option (List Char)
  | .string text => some text
  | _ => none

def excludeOf? (table : Table) : Option (List (List Char)) :=
  match table.value? excludeKey with
  | none => some ({} : Settings).exclude
  | some (.array elements) => elements.mapM stringOf?
  | some _ => none

def ofText? (text : List Char) : Option Settings := do
  let table ← Toml.read text
  let lineLength ← lineLengthOf? table
  let exclude ← excludeOf? table
  return { lineLength, exclude }

/-- The settings in a file; none if there is no file. -/
def load (files : FileSystem) (path : Path) : Except SettingsError (Option Settings) :=
  if !files.leadsSomewhere path then .ok none
  else
    match files.readText path with
    | .error fault => .error (.unreadable path fault)
    | .ok text =>
        match ofText? text with
        | none => .error (.malformed path)
        | some settings =>
            if settings.lineLength = 0 then .error (.zeroLineLength path)
            else .ok (some settings)

/-! ## Writing -/

/-- An element of an array on a line of its own. -/
def elementText (element : List Char) : List Char :=
  "    ".toList ++ Toml.Quoted.write element ++ ",\n".toList

/-- An array of strings. From two on each stands on its own line. -/
def arrayText : List (List Char) → List Char
  | [] => "[]".toList
  | [element] => '[' :: Toml.Quoted.write element ++ [']']
  | elements => "[\n".toList ++ elements.flatMap elementText ++ [']']

def text (settings : Settings) : List Char :=
  lineLengthKey ++ " = ".toList ++ Nat.toDigits 10 settings.lineLength ++
    '\n' :: excludeKey ++ " = ".toList ++ arrayText settings.exclude ++ ['\n']

/-- The files after the settings have been written, and the fault that kept them from it. The
directory of the file is created if it is missing. -/
def save (settings : Settings) (files : FileSystem) (path : Path) : FileSystem × Option Fault :=
  match files.createParent path with
  | .error fault => (files, some fault)
  | .ok files =>
      match files.write path (encodeText settings.text) with
      | .error fault => (files, some fault)
      | .ok files => (files, none)

/-! ## The settings file -/

def defaultPath (environment : PathExpansion.Environment) : Path :=
  Path.join (PathExpansion.expandTilde environment "~/.config/markdown-reflow".toList)
    "config.toml".toList

end Settings

end Refill

import Refill.Command.Arguments
import Refill.Document
import Refill.Files.Access
import Refill.Settings

/-!
# Running the command

The settings are loaded and all files are collected before the first file is touched.
The files are then refilled one after the other; the first failure ends the run, and
what has been printed and written by then stays.
-/

namespace Refill.Command

/-- What a run depends on besides its arguments. -/
structure Surroundings where
  files : FileSystem
  environment : PathExpansion.Environment
  input : ByteArray

inductive Failure where
  | usage (error : UsageError)
  | settings (error : SettingsError)
  | missingSettings (path : Path)
  | input (fault : Fault)
  | access (error : AccessError)
  | wrap (error : WrapError)
  | within (path : Path) (failure : Failure)
  deriving DecidableEq, Repr

namespace Failure

/-- The failure in words. An error that names a cause in its own message is followed by that cause. -/
def message : Failure → String
  | usage error => error.message
  | settings error =>
      match error with
      | .unreadable _ fault => error.message ++ ": " ++ fault.message
      | _ => error.message
  | missingSettings path => "Config file not found: " ++ String.ofList path
  | input fault => "Failed to read stdin: " ++ fault.message
  | access error =>
      match error with
      | .fault _ fault => error.message ++ ": " ++ fault.message
      | _ => error.message
  | wrap error => error.message
  | within path failure =>
      "Failed to reflow " ++ String.ofList path ++ ": " ++ failure.message

end Failure

structure Report where
  output : List Char
  files : FileSystem
  /-- Whether a check has found a file that would change, or why the run failed. -/
  verdict : Except Failure Bool

namespace Report

def failed (files : FileSystem) (failure : Failure) : Report where
  output := []
  files := files
  verdict := .error failure

def exitCode (report : Report) : Nat :=
  match report.verdict with
  | .ok false => 0
  | .ok true => 1
  | .error _ => 2

def after (output : List Char) (flagged : Bool) (rest : Report) : Report where
  output := output ++ rest.output
  files := rest.files
  verdict := rest.verdict.map (flagged || ·)

end Report

/-- What refilling makes of a file. -/
inductive Outcome where
  | skipped
  | unchanged (text : List Char)
  | changed (text : List Char)
  deriving DecidableEq, Repr

def outcome (settings : Settings) (width : Nat) (files : FileSystem) (path : Path) :
    Except Failure Outcome :=
  if settings.isExcluded path then .ok .skipped
  else do
    let source ← (files.textAt path).mapError .access
    let refilled ← (Document.refill source width).mapError .wrap
    return if refilled = source then .unchanged refilled else .changed refilled

structure Deed where
  output : List Char := []
  files : FileSystem
  flagged : Bool := false

/-- Does with an outcome what the mode asks for. -/
def settle (mode : Mode) (files : FileSystem) (path : Path) (outcome : Outcome) :
    Except Failure Deed :=
  match mode, outcome with
  | .print, .unchanged text | .print, .changed text => .ok { output := text, files }
  | .check, .changed _ =>
      .ok { output := "would reflow ".toList ++ path ++ ['\n'], files, flagged := true }
  | .write, .changed text => do
      let files ← (files.setText path text).mapError .access
      return { files }
  | _, _ => .ok { files }

def processFile (mode : Mode) (settings : Settings) (width : Nat) (files : FileSystem)
    (path : Path) : Except Failure Deed :=
  ((outcome settings width files path).bind (settle mode files path)).mapError (.within path)

def processFiles (mode : Mode) (settings : Settings) (width : Nat) :
    FileSystem → List Path → Report
  | files, [] => { output := [], files, verdict := .ok false }
  | files, path :: paths =>
      match processFile mode settings width files path with
      | .error failure => .failed files failure
      | .ok deed =>
          .after deed.output deed.flagged (processFiles mode settings width deed.files paths)

def processInput (mode : Mode) (width : Nat) (surroundings : Surroundings) : Report :=
  match decodeText? surroundings.input with
  | none => .failed surroundings.files (.input .notText)
  | some source =>
      match Document.refill source width with
      | .error error => .failed surroundings.files (.wrap error)
      | .ok refilled =>
          { output := if mode = .check then [] else refilled
            files := surroundings.files
            verdict := .ok (mode = .check && refilled != source) }

/-- The path of the settings: the one that is named, with its variables expanded where they can be,
or else that of the user. -/
def settingsPath (environment : PathExpansion.Environment) (named : Option Path) : Path :=
  match named with
  | none => Settings.defaultPath environment
  | some path => (PathExpansion.expand? environment path).getD path

/-- The settings of a run. Only those of the user may be missing. -/
def loadSettings (surroundings : Surroundings) (named : Option Path) : Except Failure Settings :=
  let path := settingsPath surroundings.environment named
  match Settings.load surroundings.files path with
  | .error error => .error (.settings error)
  | .ok (some settings) => .ok settings
  | .ok none => if named.isSome then .error (.missingSettings path) else .ok {}

def Options.width (options : Options) (settings : Settings) : Nat :=
  options.lineLength.getD settings.lineLength

/-- Runs the command with its options. Without paths it refills standard input. -/
def run (surroundings : Surroundings) (options : Options) : Report :=
  match loadSettings surroundings options.settingsPath with
  | .error failure => .failed surroundings.files failure
  | .ok settings =>
      let width := options.width settings
      if options.paths.isEmpty then processInput options.mode width surroundings
      else
        match surroundings.files.collect options.paths with
        | .error error => .failed surroundings.files (.access error)
        | .ok paths => processFiles options.mode settings width surroundings.files paths

def versionText : String := "markdown-reflow 0.1.0\n"

def helpLines : List String :=
  ["Re-wrap Markdown paragraphs to a fixed line length",
    "",
    "Usage: markdown-reflow [OPTIONS] [PATHS]...",
    "",
    "Arguments:",
    "  [PATHS]...  Markdown files or directories (reads stdin when omitted)",
    "",
    "Options:",
    "  -l, --line-length <LINE_LENGTH>  Maximum line length; overrides the config file",
    "      --config <CONFIG>            Config file to use instead of "
      ++ "~/.config/markdown-reflow/config.toml",
    "      --check                      Report files that would change and exit with status 1 "
      ++ "if any would",
    "  -w, --write                      Rewrite files in place instead of printing them",
    "  -v, --verbose...                 Increase log verbosity (-v info, -vv debug)",
    "  -h, --help                       Print help",
    "  -V, --version                    Print version"]

def helpText : String :=
  String.join (helpLines.map (· ++ "\n"))

def execute (surroundings : Surroundings) (arguments : List (List Char)) : Report :=
  match Options.ofArguments arguments with
  | .ok options => run surroundings options
  | .error (.usage error) => .failed surroundings.files (.usage error)
  | .error .help => ⟨helpText.toList, surroundings.files, .ok false⟩
  | .error .version => ⟨versionText.toList, surroundings.files, .ok false⟩

end Refill.Command

import Refill.Files.Path

/-!
# Arguments of the command

Options begin with `-` and the rest are paths; behind `--` all are paths. Short options
may share one hyphen, and a value may be attached to its option. Help and version are
answered as soon as they are met, so only the arguments before them have to be right.
-/

namespace Refill.Command

/-- What becomes of the refilled files. -/
inductive Mode where
  | print
  | check
  | write
  deriving DecidableEq, Repr

structure Options where
  paths : List Path := []
  lineLength : Option Nat := none
  settingsPath : Option Path := none
  mode : Mode := .print
  verbosity : Nat := 0
  deriving DecidableEq, Repr

inductive Switch where
  | lineLength
  | settings
  | check
  | write
  | verbose
  | help
  | version
  deriving DecidableEq, Repr

namespace Switch

def name : Switch → String
  | lineLength => "line-length"
  | settings => "config"
  | check => "check"
  | write => "write"
  | verbose => "verbose"
  | help => "help"
  | version => "version"

def ofName? (text : List Char) : Option Switch :=
  [lineLength, settings, check, write, verbose, help, version].find? (·.name.toList = text)

def ofLetter? : Char → Option Switch
  | 'l' => some lineLength
  | 'w' => some write
  | 'v' => some verbose
  | 'h' => some help
  | 'V' => some version
  | _ => none

def takesValue : Switch → Bool
  | lineLength | settings => true
  | check | write | verbose | help | version => false

end Switch

inductive UsageError where
  | unknown (argument : List Char)
  | missingValue (switch : Switch)
  | needlessValue (switch : Switch)
  | repeated (switch : Switch)
  | invalidNumber (text : List Char)
  | emptyPath
  | conflict
  deriving DecidableEq, Repr

namespace UsageError

def message : UsageError → String
  | unknown argument => "unexpected argument '" ++ String.ofList argument ++ "' found"
  | missingValue switch => "a value is required for '--" ++ switch.name ++ "' but none was supplied"
  | needlessValue switch => "unexpected value for '--" ++ switch.name ++ "' found"
  | repeated switch => "the argument '--" ++ switch.name ++ "' cannot be used multiple times"
  | invalidNumber text => "invalid value '" ++ String.ofList text ++ "' for '--line-length'"
  | emptyPath => "a path cannot be empty"
  | conflict => "the argument '--check' cannot be used with '--write'"

end UsageError

/-- What ends the reading of the arguments early. -/
inductive Stop where
  | help
  | version
  | usage (error : UsageError)
  deriving DecidableEq, Repr

/-- What the arguments so far have set. -/
structure Draft where
  paths : List Path := []
  lineLength : Option Nat := none
  settingsPath : Option Path := none
  check : Bool := false
  write : Bool := false
  verbosity : Nat := 0

/-- The numbers that can be held: the unsigned ones of 64 bits. -/
def numberBound : Nat := Nat.pow 2 64

/-- The number that the text stands for. A plus sign may stand in front. -/
def number? (text : List Char) : Option Nat :=
  let digits :=
    match text with
    | '+' :: digits => digits
    | digits => digits
  if digits.isEmpty || !digits.all Char.isDigit then none
  else
    let number := Nat.ofDigitChars 10 digits 0
    if number < numberBound then some number else none

namespace Draft

def addPath (draft : Draft) (path : Path) : Except Stop Draft :=
  if path.isEmpty then .error (.usage .emptyPath)
  else .ok { draft with paths := draft.paths ++ [path] }

def turnOn (draft : Draft) (switch : Switch) : Except Stop Draft :=
  match switch with
  | .check =>
      if draft.check then .error (.usage (.repeated switch)) else .ok { draft with check := true }
  | .write =>
      if draft.write then .error (.usage (.repeated switch)) else .ok { draft with write := true }
  | .verbose => .ok { draft with verbosity := draft.verbosity + 1 }
  | .help => .error .help
  | .version => .error .version
  | .lineLength | .settings => .error (.usage (.missingValue switch))

def give (draft : Draft) (switch : Switch) (value : List Char) : Except Stop Draft :=
  match switch with
  | .lineLength =>
      if draft.lineLength.isSome then .error (.usage (.repeated switch))
      else
        match number? value with
        | none => .error (.usage (.invalidNumber value))
        | some number => .ok { draft with lineLength := some number }
  | .settings =>
      if draft.settingsPath.isSome then .error (.usage (.repeated switch))
      else if value.isEmpty then .error (.usage .emptyPath)
      else .ok { draft with settingsPath := some value }
  | .check | .write | .verbose | .help | .version => .error (.usage (.needlessValue switch))

/-- The draft after the letters behind one hyphen, and the switch that waits for its value. -/
def readLetters (draft : Draft) : List Char → Except Stop (Draft × Option Switch)
  | [] => .ok (draft, none)
  | letter :: rest =>
      match Switch.ofLetter? letter with
      | none => .error (.usage (.unknown ['-', letter]))
      | some switch =>
          if switch.takesValue then
            match rest with
            | [] => .ok (draft, some switch)
            | '=' :: value => (draft.give switch value).map (·, none)
            | value => (draft.give switch value).map (·, none)
          else
            match draft.turnOn switch with
            | .error stop => .error stop
            | .ok draft => draft.readLetters rest

/-- The draft after what follows two hyphens, and the switch that waits for its value. -/
def readName (draft : Draft) (text : List Char) : Except Stop (Draft × Option Switch) :=
  let name := text.takeWhile (· != '=')
  match Switch.ofName? name, text.drop name.length with
  | none, _ => .error (.usage (.unknown ('-' :: '-' :: name)))
  | some switch, [] =>
      if switch.takesValue then .ok (draft, some switch) else (draft.turnOn switch).map (·, none)
  | some switch, _ :: value => (draft.give switch value).map (·, none)

def readArgument (draft : Draft) (argument : List Char) : Except Stop (Draft × Option Switch) :=
  match argument with
  | '-' :: '-' :: text => draft.readName text
  | '-' :: letter :: rest => draft.readLetters (letter :: rest)
  | path => (draft.addPath path).map (·, none)

/-- Whether the argument is an option and so no value of the option before. -/
def isOption (argument : List Char) : Bool :=
  argument.head? == some '-' && argument != ['-']

def read (draft : Draft) : List (List Char) → Except Stop Draft
  | [] => .ok draft
  | argument :: rest =>
      if argument = "--".toList then rest.foldlM addPath draft
      else
        match draft.readArgument argument with
        | .error stop => .error stop
        | .ok (draft, none) => draft.read rest
        | .ok (draft, some switch) =>
            match rest with
            | [] => .error (.usage (.missingValue switch))
            | value :: rest =>
                if isOption value then .error (.usage (.missingValue switch))
                else
                  match draft.give switch value with
                  | .error stop => .error stop
                  | .ok draft => draft.read rest

def finish (draft : Draft) : Except Stop Options :=
  if draft.check && draft.write then .error (.usage .conflict)
  else
    .ok {
      paths := draft.paths
      lineLength := draft.lineLength
      settingsPath := draft.settingsPath
      mode := if draft.check then .check else if draft.write then .write else .print
      verbosity := draft.verbosity }

end Draft

def Options.ofArguments (arguments : List (List Char)) : Except Stop Options :=
  (Draft.read {} arguments).bind Draft.finish

end Refill.Command

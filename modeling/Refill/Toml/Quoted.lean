/-!
# TOML strings

A string stands between quotes, with escapes, or between apostrophes, as it is. Three
quotes or apostrophes open a string of several lines. `write` takes the plainest form
that can hold the text; the readers take every form.
-/

namespace Refill.Toml

/-- Whether the character has to be escaped or is refused: a control character, the tab excepted. -/
def isControl (c : Char) : Bool :=
  (c.toNat < 0x20 && c != '\t') || c.toNat == 0x7F

namespace Quoted

/-! ## Escapes -/

def hexDigit (value : Nat) : Char :=
  if value < 10 then Char.ofNat (value + '0'.toNat) else Char.ofNat (value - 10 + 'A'.toNat)

def hexValue? (c : Char) : Option Nat :=
  if '0' ≤ c && c ≤ '9' then some (c.toNat - '0'.toNat)
  else if 'A' ≤ c && c ≤ 'F' then some (c.toNat - 'A'.toNat + 10)
  else if 'a' ≤ c && c ≤ 'f' then some (c.toNat - 'a'.toNat + 10)
  else none

def escape (c : Char) : List Char :=
  match c with
  | '\x08' => ['\\', 'b']
  | '\t' => ['\\', 't']
  | '\n' => ['\\', 'n']
  | '\x0c' => ['\\', 'f']
  | '\r' => ['\\', 'r']
  | '"' => ['\\', '"']
  | '\\' => ['\\', '\\']
  | c =>
      if isControl c then
        ['\\', 'u', '0', '0', hexDigit (c.toNat / 16), hexDigit (c.toNat % 16)]
      else [c]

/-- The number with these hexadecimal digits, the value of those before given. -/
def hexNumber? : (value : Nat) → List Char → Option Nat
  | value, [] => some value
  | value, c :: rest =>
      match hexValue? c with
      | none => none
      | some digit => hexNumber? (16 * value + digit) rest

/-- The character whose code is written with so many hexadecimal digits. -/
def coded? (count : Nat) (text : List Char) : Option (Char × Nat) :=
  if text.length < count then none
  else
    match hexNumber? 0 (text.take count) with
    | none => none
    | some code => if code.isValidChar then some (Char.ofNat code, count + 1) else none

/-- The character that an escape stands for, and the number of characters behind the backslash. -/
def unescape? : List Char → Option (Char × Nat)
  | 'b' :: _ => some ('\x08', 1)
  | 't' :: _ => some ('\t', 1)
  | 'n' :: _ => some ('\n', 1)
  | 'f' :: _ => some ('\x0c', 1)
  | 'r' :: _ => some ('\r', 1)
  | 'e' :: _ => some ('\x1b', 1)
  | '"' :: _ => some ('"', 1)
  | '\\' :: _ => some ('\\', 1)
  | 'x' :: digits => coded? 2 digits
  | 'u' :: digits => coded? 4 digits
  | 'U' :: digits => coded? 8 digits
  | _ => none

/-! ## Readers

Each reads what follows the opening mark, and gives the text and what is left. -/

def readBasic (text : List Char) : Option (List Char × List Char) :=
  match text with
  | [] => none
  | '"' :: rest => some ([], rest)
  | '\\' :: rest =>
      match unescape? rest with
      | none => none
      | some (c, count) => (readBasic (rest.drop count)).map fun (cs, behind) => (c :: cs, behind)
  | c :: rest =>
      if isControl c then none
      else (readBasic rest).map fun (cs, behind) => (c :: cs, behind)
termination_by text.length
decreasing_by all_goals grind

def readLiteral : List Char → Option (List Char × List Char)
  | [] => none
  | '\'' :: rest => some ([], rest)
  | c :: rest =>
      if isControl c then none
      else (readLiteral rest).map fun (cs, behind) => (c :: cs, behind)

/-- Up to two more marks before a closing one belong to the text. -/
def readExtra (mark : Char) : List Char → List Char × List Char
  | first :: second :: rest =>
      if first = mark && second = mark then ([mark, mark], rest)
      else if first = mark then ([mark], second :: rest)
      else ([], first :: second :: rest)
  | [first] => if first = mark then ([mark], []) else ([], [first])
  | [] => ([], [])

def dropLineEnd? : List Char → Option (List Char)
  | '\n' :: rest => some rest
  | '\r' :: '\n' :: rest => some rest
  | _ => none

/-- Whether the character may stand in a string of several lines as it is. -/
def isPlainInLines (c : Char) (rest : List Char) : Bool :=
  c == '\n' || (c == '\r' && rest.head? == some '\n') || !isControl c

def countFiller : List Char → Nat
  | '\r' :: '\n' :: rest => countFiller rest + 2
  | c :: rest => if c = ' ' || c = '\t' || c = '\n' then countFiller rest + 1 else 0
  | [] => 0

/-- The number of characters that a backslash at the end of a line hides; none if it stands elsewhere. -/
def hidden? (text : List Char) : Option Nat :=
  let behind := text.dropWhile fun c => c == ' ' || c == '\t'
  (dropLineEnd? behind).map fun _ => countFiller text

def readBasicLines (text : List Char) : Option (List Char × List Char) :=
  match text with
  | [] => none
  | '"' :: '"' :: '"' :: rest => some (readExtra '"' rest)
  | '\\' :: rest =>
      match hidden? rest with
      | some count => readBasicLines (rest.drop count)
      | none =>
          match unescape? rest with
          | none => none
          | some (c, count) =>
              (readBasicLines (rest.drop count)).map fun (cs, behind) => (c :: cs, behind)
  | c :: rest =>
      if isPlainInLines c rest then
        (readBasicLines rest).map fun (cs, behind) => (c :: cs, behind)
      else none
termination_by text.length
decreasing_by all_goals grind

def readLiteralLines : List Char → Option (List Char × List Char)
  | [] => none
  | '\'' :: '\'' :: '\'' :: rest => some (readExtra '\'' rest)
  | c :: rest =>
      if isPlainInLines c rest then
        (readLiteralLines rest).map fun (cs, behind) => (c :: cs, behind)
      else none

/-- A line end right behind the opening mark is not part of the text. -/
def dropFirstLineEnd (text : List Char) : List Char :=
  (dropLineEnd? text).getD text

/-- The string in front of a text, with its marks; `none` also where no string begins. -/
def read (text : List Char) : Option (List Char × List Char) :=
  match text with
  | '"' :: '"' :: '"' :: rest => readBasicLines (dropFirstLineEnd rest)
  | '"' :: rest => readBasic rest
  | '\'' :: '\'' :: '\'' :: rest => readLiteralLines (dropFirstLineEnd rest)
  | '\'' :: rest => readLiteral rest
  | _ => none

/-! ## Writing -/

inductive Form where
  | basic
  | literal
  | basicLines
  | literalLines
  deriving DecidableEq, Repr

/-- The length of the longest run of a character, that of the run before given. -/
def longestRun (c : Char) : (run : Nat) → List Char → Nat
  | run, [] => run
  | run, other :: rest =>
      if other = c then longestRun c (run + 1) rest else max run (longestRun c 0 rest)

def needsEscape (c : Char) : Bool :=
  isControl c && c != '\n'

def form (text : List Char) : Form :=
  let coded := text.any needsEscape
  let slashed := text.contains '\\'
  let broken := text.contains '\n'
  let quotes := longestRun '"' 0 text
  let apostrophes := longestRun '\'' 0 text
  if !coded && !slashed && quotes = 0 && !broken then .basic
  else if !coded && apostrophes = 0 && !broken then .literal
  else if !coded && !slashed && quotes ≤ 2 then .basicLines
  else if !coded && apostrophes ≤ 2 then .literalLines
  else if broken then .basicLines
  else .basic

/-- A text of several lines between quotes. Of three quotes in a row the third is escaped; `quotes`
counts those before. -/
def escapeLines : (quotes : Nat) → List Char → List Char
  | _, [] => []
  | quotes, c :: rest =>
      if c = '\n' then '\n' :: escapeLines 0 rest
      else if c = '"' then
        if quotes < 2 then '"' :: escapeLines (quotes + 1) rest
        else '\\' :: '"' :: escapeLines 0 rest
      else escape c ++ escapeLines 0 rest

/-- A text of several lines starts on the line behind the opening mark. -/
def firstLineEnd (text : List Char) : List Char :=
  if text.contains '\n' then ['\n'] else []

def writeAs (text : List Char) : Form → List Char
  | .basic => '"' :: text.flatMap escape ++ ['"']
  | .literal => '\'' :: text ++ ['\'']
  | .basicLines => "\"\"\"".toList ++ firstLineEnd text ++ escapeLines 0 text ++ "\"\"\"".toList
  | .literalLines => "'''".toList ++ firstLineEnd text ++ text ++ "'''".toList

def write (text : List Char) : List Char :=
  writeAs text (form text)

end Quoted

end Refill.Toml

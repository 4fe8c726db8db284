import Refill.Markdown.Line

/-!
# How blocks open

The marks by which a line tells what block it opens or closes: thematic breaks,
headings, code fences, items and the delimiter rows of tables.
-/

namespace Refill.Markdown

/-- The length of a thematic break: three or more of one mark, with spaces and tabs between. -/
def thematicBreak? (rest : List Char) : Option Nat :=
  match rest with
  | [] => none
  | mark :: _ =>
      if mark == '*' || mark == '-' || mark == '_' then
        let marks := line rest
        if marks.all (fun c => c == mark || c == ' ' || c == '\t') && 3 ≤ marks.count mark then
          some (lineLength rest)
        else none
      else none

/-- Whether a heading opens: one to six number signs and a blank. -/
def opensHeading (rest : List Char) : Bool :=
  let level := runLength '#' rest
  1 ≤ level && level ≤ 6 && (rest.drop level).head?.all isWhite

/-- The length of the line that makes a heading of the lines before it. -/
def underline? (rest : List Char) : Option Nat :=
  match rest with
  | [] => none
  | mark :: _ =>
      if mark == '=' || mark == '-' then
        let run := runLength mark rest
        (blankLine? (rest.drop run)).map (run + ·)
      else none

/-- The fence of a code block: its mark and how often that stands. -/
structure Fence where
  mark : Char
  length : Nat

/-- The fence that opens a code block: three or more backticks, with none in the text up to the next
line feed, or tildes. -/
def fence? (rest : List Char) : Option Fence :=
  match rest with
  | [] => none
  | mark :: _ =>
      let length := runLength mark rest
      let info := (rest.drop length).takeWhile (· != '\n')
      if (mark == '~' || (mark == '\x60' && !info.contains mark)) && 3 ≤ length then
        some { mark, length }
      else none

/-- The length of what closes a code block up to the end of its line. The end of the document does,
too. -/
def Fence.close? (fence : Fence) (rest : List Char) : Option Nat :=
  if rest.isEmpty then some 0
  else
    let run := runLength fence.mark rest
    let length := run + runLength ' ' (rest.drop run)
    if fence.length ≤ run && (lineEnd? (rest.drop length)).isSome then some length else none

/-- The mark of a list item: the character that tells lists apart, the number of an ordered item,
and the length. -/
structure ItemMark where
  delimiter : Char
  number : Option Nat
  length : Nat

def decimalValue (digits : List Char) : Nat :=
  digits.foldl (fun value digit => 10 * value + (digit.toNat - '0'.toNat)) 0

/-- The mark of a list item: a bullet, or up to nine digits and a point or bracket. -/
def itemMark? (rest : List Char) : Option ItemMark :=
  match rest with
  | [] => none
  | c :: _ =>
      if c == '-' || c == '+' || c == '*' then some ⟨c, none, 1⟩
      else
        let digits := rest.takeWhile Char.isDigit
        match rest.drop digits.length with
        | delimiter :: _ =>
            if 1 ≤ digits.length && digits.length ≤ 9 &&
                (delimiter == '.' || delimiter == ')') then
              some ⟨delimiter, some (decimalValue digits), digits.length + 1⟩
            else none
        | [] => none

/-- The parts of a line between pipes. -/
def cells (text : List Char) : List (List Char) :=
  match text with
  | [] => [[]]
  | c :: rest =>
      if c == '|' then [] :: cells rest
      else
        match cells rest with
        | [] => [[c]]
        | cell :: others => (c :: cell) :: others

/-- The number of columns that a delimiter row sets up: its cells hold hyphens, colons and spaces,
all but the last hold a hyphen, and a pipe is among them. -/
def delimiterColumns? (rest : List Char) : Option Nat :=
  let indent := runLength ' ' rest
  let row := line (rest.drop indent)
  let led := row.head? == some '|'
  let parts := cells (if led then row.drop 1 else row)
  let complete := parts.dropLast
  let final := (parts.getLast?).getD []
  if indent ≤ 3 && (led || !complete.isEmpty) &&
      parts.all (·.all fun c => c == '-' || c == ':' || c == ' ') &&
      complete.all (·.contains '-') && (!complete.isEmpty || final.contains '-') then
    some (complete.length + (if final.any (· != ' ') then 1 else 0))
  else none

/-- The number of columns of a header row with so many pipes, of which the last one stands after so
many characters. Pipes at either end do not divide columns. -/
def headerColumns (row : List Char) (pipes lastPipe : Nat) : Nat :=
  let leading := (row.drop (lengthWhile isGap row)).head? == some '|'
  let dividing := if leading then pipes - 1 else pipes
  if isBlankLine (row.drop (lastPipe + 1)) then dividing else dividing + 1

end Refill.Markdown

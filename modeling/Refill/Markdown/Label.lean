import Refill.Markdown.Line

/-!
# Labels and destinations of links

The parts of links and of their definitions: a label up to its closing bracket, a
destination, and a title. As for lines, the functions measure a front of what is left.
-/

namespace Refill.Markdown

/-- What has been read of a label. -/
structure LabelScan where
  length : Nat
  /-- What counts towards the greatest size of a label. -/
  size : Nat
  /-- Whether a character has been read that makes the label one. -/
  solid : Bool
  blank : Bool
  /-- Whether the blanks read latest hold a line end. -/
  broken : Bool
  /-- Characters that belong to a line end or to the beginning of the next line. -/
  skip : Nat
  /-- The label so far, latest character first, with one space for each run of blanks. -/
  name : List Char

namespace LabelScan

def start : LabelScan where
  length := 0
  size := 0
  solid := false
  blank := false
  broken := false
  skip := 0
  name := []

def push (scan : LabelScan) (c : Char) : LabelScan where
  length := scan.length + 1
  size := if c.val < 128 then scan.size else scan.size + c.utf8Size
  solid := true
  blank := false
  broken := false
  skip := 0
  name := c :: scan.name

def pushEscaped (scan : LabelScan) (c : Char) : LabelScan where
  length := scan.length + 2
  size := scan.size + 1 + c.utf8Size
  solid := scan.solid || 128 ≤ c.val
  blank := false
  broken := false
  skip := 0
  name := c :: '\\' :: scan.name

def pushBlank (scan : LabelScan) : LabelScan :=
  { scan with
    length := scan.length + 1
    size := scan.size + 1
    blank := true
    name := if scan.blank then scan.name else ' ' :: scan.name }

end LabelScan

def trimName (reversed : List Char) : List Char :=
  ((reversed.dropWhile isWhite).reverse).dropWhile isWhite

/-- The length of a label with its closing bracket, and its name. The label is read from behind its
opening bracket; `lineBreak` says how many characters to pass over behind a line end, or that the
label may not go on there. A label has something besides blanks and escapes, and is not too
large. -/
def label? (lineBreak : List Char → Option Nat) (rest : List Char) : Option (Nat × List Char) :=
  go .start rest
where
  go (scan : LabelScan) : List Char → Option (Nat × List Char)
    | [] => none
    | c :: rest =>
        if 0 < scan.skip then go { scan.pushBlank with skip := scan.skip - 1 } rest
        else if 1000 ≤ scan.size || c == '[' then none
        else if c == ']' then
          if scan.solid then some (scan.length + 1, trimName scan.name) else none
        else if c == '\\' then
          match rest with
          | [] => none
          | escaped :: rest => go (scan.pushEscaped escaped) rest
        else if isLineEnd c then
          if scan.broken then none
          else
            let pair := c == '\r' && rest.head? == some '\n'
            match lineBreak (if pair then rest.drop 1 else rest) with
            | none => none
            | some skip =>
                let skip := if pair then skip + 1 else skip
                go { scan.pushBlank with broken := true, skip } rest
        else if isGap c then go scan.pushBlank rest
        else go (scan.push c) rest

/-- The length of a destination: in angle brackets on one line, or up to a blank or control with
its round brackets in pairs, nested no deeper than `depth` allows. -/
def destination? (depth : Nat) (rest : List Char) : Option Nat :=
  match rest with
  | '<' :: rest => pointed 1 rest
  | rest => bare 0 0 rest
where
  /-- A destination in angle brackets of which so many characters have been read. -/
  pointed (length : Nat) : List Char → Option Nat
    | [] => none
    | '>' :: _ => some (length + 1)
    | '\\' :: c :: rest =>
        if isPunctuation c then pointed (length + 2) rest else pointed (length + 1) (c :: rest)
    | c :: rest => if isLineEnd c || c == '<' then none else pointed (length + 1) rest
  /-- A destination without angle brackets, with so many brackets open. -/
  bare (length nested : Nat) : List Char → Option Nat
    | [] => if nested = 0 then some length else none
    | '\\' :: c :: rest =>
        if isPunctuation c then bare (length + 2) nested rest
        else bare (length + 1) nested (c :: rest)
    | c :: rest =>
        if c ≤ ' ' then if nested = 0 then some length else none
        else if c == '(' then
          if depth < nested then none else bare (length + 1) (nested + 1) rest
        else if c == ')' then
          if nested = 0 then some length else bare (length + 1) (nested - 1) rest
        else bare (length + 1) nested rest

def titleClose? : Char → Option Char
  | '"' => some '"'
  | '\'' => some '\''
  | '(' => some ')'
  | _ => none

def title? (rest : List Char) : Option Nat :=
  match rest with
  | [] => none
  | mark :: rest => (titleClose? mark).bind fun close => go mark close 1 rest
where
  go (mark close : Char) (length : Nat) : List Char → Option Nat
    | [] => none
    | c :: rest =>
        if c == close then some (length + 1)
        else if c == mark then none
        else if c == '\\' then
          match rest with
          | [] => none
          | escaped :: rest =>
              if isPunctuation escaped then go mark close (length + 2) rest
              else go mark close (length + 1) (escaped :: rest)
        else go mark close (length + 1) rest

end Refill.Markdown

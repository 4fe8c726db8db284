import Refill.Markdown.Block
import Refill.Markdown.Html
import Refill.Markdown.Label
import Refill.Text.Folding

/-!
# Inline structure

A line of a paragraph that ends in two blanks or a backslash breaks there, unless the
line end is swallowed: it may lie in a code span, in HTML, or behind the label of a
link. `swallowed` finds the stretches of a paragraph's text in which no line break
counts. It reads the text from left to right. Of two things that overlap, the one that
opens first counts, except that the brackets of a link are matched when they close.
-/

namespace Refill.Markdown

structure Definitions where
  links : List (List Char)
  footnotes : List (List Char)

/-- The form of a label in which labels are compared. -/
def foldLabel (name : List Char) : List Char :=
  Text.foldCase name

/-- A mark in the text of a paragraph that may open or close something. -/
inductive Sign where
  /-- An angle bracket that may open HTML or an address. -/
  | angle
  /-- A run of backticks, the first of which may stand behind a backslash. -/
  | ticks (count : Nat) (escaped : Bool)
  /-- The bracket that opens a link or an image. -/
  | bracket (image : Bool)
  /-- The bracket that closes one. -/
  | close
  deriving DecidableEq, Repr

structure SignAt where
  sign : Sign
  /-- The number of characters before the sign. -/
  start : Nat
  /-- The number of characters before what follows it. -/
  stop : Nat
  rest : List Char

/-- The signs of a text. A backslash takes the punctuation behind it out, but a backtick that it
takes out still counts towards the run of backticks that closes a code span. -/
def signs (text : List Char) : List SignAt :=
  go 0 0 text
where
  /-- The signs behind the first `skip` characters. -/
  go (skip offset : Nat) : List Char → List SignAt
    | [] => []
    | c :: rest =>
        if 0 < skip then go (skip - 1) (offset + 1) rest
        else if c == '\\' && rest.head?.any isPunctuation then
          if rest.head? == some '\x60' then
            let count := runLength '\x60' rest
            ⟨.ticks count true, offset + 1, offset + 1 + count, rest.drop count⟩ ::
              go count (offset + 1) rest
          else go 1 (offset + 1) rest
        else if c == '\x60' then
          let count := runLength '\x60' (c :: rest)
          ⟨.ticks count false, offset, offset + count, rest.drop (count - 1)⟩ ::
            go (count - 1) (offset + 1) rest
        else if c == '<' && rest.head? != some '\\' then
          ⟨.angle, offset, offset + 1, rest⟩ :: go 0 (offset + 1) rest
        else if c == '!' && rest.head? == some '[' then
          ⟨.bracket true, offset, offset + 2, rest.drop 1⟩ :: go 1 (offset + 1) rest
        else if c == '[' then ⟨.bracket false, offset, offset + 1, rest⟩ :: go 0 (offset + 1) rest
        else if c == ']' then ⟨.close, offset, offset + 1, rest⟩ :: go 0 (offset + 1) rest
        else go 0 (offset + 1) rest

/-- The length of the blanks between the parts of a link, with at most one line end. -/
def separatorLength (rest : List Char) : Nat :=
  let gap := lengthWhile isGap rest
  let behind := rest.drop gap
  let broken := if behind.isEmpty then 0 else (lineEnd? behind).getD 0
  gap + broken + lengthWhile isGap (behind.drop broken)

/-- The length of a destination in round brackets, with the brackets. -/
def inlineDestination? (rest : List Char) : Option Nat :=
  if rest.head? == some '(' then
    let opened := 1 + separatorLength (rest.drop 1)
    match destination? 32 (rest.drop opened) with
    | none => none
    | some length =>
        let behind := opened + length
        let behind := behind + separatorLength (rest.drop behind)
        let behind :=
          match title? (rest.drop behind) with
          | none => behind
          | some length =>
              behind + length + separatorLength (rest.drop (behind + length))
        if (rest.drop behind).head? == some ')' then some (behind + 1) else none
  else none

/-- A label in square brackets: of a link, or of a footnote, which stays on its line. -/
inductive LabelAt where
  | link (length : Nat) (name : List Char)
  | footnote (length : Nat) (name : List Char)

/-- The label from behind its opening bracket on, with its length behind that. -/
def labelAt? (rest : List Char) : Option LabelAt :=
  let footnote :=
    if rest.head? == some '^' && (rest.drop 1).head? != some ']' then
      (label? (fun _ => none) (rest.drop 1)).map fun (length, name) =>
        LabelAt.footnote (length + 1) name
    else none
  footnote.or ((label? (fun _ => some 0) rest).map fun (length, name) => .link length name)

/-- A bracket that has been opened: its sign, and whether a link around it has been found, so that
no link opens there. -/
structure Opener where
  sign : SignAt
  image : Bool
  disabled : Bool

/-- What has been found in the text before the next sign. -/
structure InlineScan where
  /-- The brackets that are open, the latest first. -/
  openers : List Opener
  /-- The closing brackets of labels that name no link, by the characters before them. -/
  spent : List Nat
  /-- The stretches that no line break counts in. -/
  swallowed : List Span

namespace InlineScan

def start : InlineScan where
  openers := []
  spent := []
  swallowed := []

def swallow (scan : InlineScan) (start stop : Nat) : InlineScan :=
  { scan with swallowed := ⟨start, stop⟩ :: scan.swallowed }

/-- Once a link is found, the brackets around it open no other. -/
def linked (scan : InlineScan) (opener : Opener) : InlineScan :=
  if opener.image then scan
  else
    { scan with
      openers := scan.openers.map fun outer =>
        if outer.image then outer else { outer with disabled := true } }

end InlineScan

/-- What becomes of a closing bracket: the scan behind it, and where it goes on. -/
def closeBracket (definitions : Definitions) (scan : InlineScan) (opener : Opener) (close : SignAt) :
    InlineScan × Nat :=
  match inlineDestination? close.rest with
  | some length =>
      ((scan.swallow close.stop (close.stop + length)).linked opener, close.stop + length)
  | none =>
      let own := (labelAt? opener.sign.rest).filter fun
        | .link length _ => opener.sign.stop + length == close.stop
        | .footnote length _ => opener.sign.stop + length == close.stop
      let collapsed := "[]".toList.isPrefixOf close.rest
      let reference :=
        if !collapsed && close.rest.head? == some '[' then labelAt? (close.rest.drop 1) else none
      match reference with
      | some (.link length name) =>
          let stop := close.stop + 1 + length
          let scan := { scan with spent := (stop - 1) :: scan.spent }
          if definitions.links.contains (foldLabel name) then
            ((scan.swallow close.stop stop).linked opener, stop)
          else (scan, close.stop)
      | _ =>
          if scan.spent.contains close.start then (scan, close.stop)
          else
            match own with
            | some (.footnote _ name) =>
                if definitions.footnotes.contains (foldLabel name) then
                  ({ scan with openers := [] }, close.stop)
                else (scan, close.stop)
            | some (.link _ name) =>
                if definitions.links.contains (foldLabel name) then
                  (scan.linked opener, if collapsed then close.stop + 2 else close.stop)
                else (scan, close.stop)
            | none => (scan, close.stop)

/-- The stretches of a text in which no line break counts; `fuel` bounds the number of signs. -/
def scanSigns (definitions : Definitions) : (fuel : Nat) → InlineScan → List SignAt → InlineScan
  | 0, scan, _ => scan
  | _, scan, [] => scan
  | fuel + 1, scan, sign :: later =>
      match sign.sign with
      | .angle =>
          match (address? sign.rest).or (inlineHtml? sign.rest) with
          | none => scanSigns definitions fuel scan later
          | some length =>
              let stop := sign.start + length
              scanSigns definitions fuel (scan.swallow sign.start stop)
                (later.dropWhile (·.stop ≤ stop))
      | .ticks count escaped =>
          let count := if escaped then count - 1 else count
          let closing := later.find? fun other =>
            match other.sign with
            | .ticks found _ => 0 < count && found == count
            | _ => false
          match closing with
          | none => scanSigns definitions fuel scan later
          | some closing =>
              scanSigns definitions fuel (scan.swallow sign.start closing.stop)
                (later.dropWhile (·.stop ≤ closing.stop))
      | .bracket image =>
          scanSigns definitions fuel
            { scan with openers := ⟨sign, image, false⟩ :: scan.openers } later
      | .close =>
          match scan.openers with
          | [] => scanSigns definitions fuel scan later
          | opener :: outer =>
              let scan := { scan with openers := outer }
              if opener.disabled then scanSigns definitions fuel scan later
              else
                let (scan, stop) := closeBracket definitions scan opener sign
                scanSigns definitions fuel scan (later.dropWhile (·.stop ≤ stop))

def swallowed (definitions : Definitions) (text : List Char) : List Span :=
  let signs := signs text
  (scanSigns definitions signs.length .start signs).swallowed

/-- The places at which the lines of a paragraph break. -/
def hardBreaks (definitions : Definitions) (lines : List TextLine) : List Nat :=
  if lines.all (·.breakAt.isNone) then []
  else
    let stretches := swallowed definitions (['\n'].intercalate (lines.map TextLine.content))
    go stretches 0 lines
where
  /-- The places among the lines, before which there are so many characters. -/
  go (stretches : List Span) (offset : Nat) : List TextLine → List Nat
    | [] => []
    | line :: lines =>
        let lineEnd := offset + line.content.length
        let later := go stretches (lineEnd + 1) lines
        match line.breakAt with
        | none => later
        | some place => if stretches.any (·.holds lineEnd) then later else place :: later

end Refill.Markdown

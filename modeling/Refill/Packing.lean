import Refill.Token

/-!
# Packing tokens into lines

Lines are filled greedily: a token goes on the current line if it fits there with
its space, and begins the next line otherwise. A token is never cut, so one that is
wider than a line stands alone. A line break closes its line, unless it is the last
token of all.

`pack` gives the tokens of each line and `lineText` their text; `layout` joins the lines.
-/

namespace Refill

inductive WrapError where
  /-- The width is zero: no line can hold anything. -/
  | zeroWidth
  deriving DecidableEq, Repr

namespace WrapError

def message : WrapError → String
  | zeroWidth => "Invalid wrap width 0: width must be at least 1"

end WrapError

/-- A line: its tokens, latest first, and the number of their characters and spaces. -/
structure Line where
  tokens : List Token
  width : Nat

namespace Line

def empty : Line where
  tokens := []
  width := 0

/-- The characters that the token adds to the line. A line that shows nothing yet needs no space. -/
def cost (line : Line) (token : Token) : Nat :=
  if line.width ≠ 0 && token.spaced then token.text.length + 1 else token.text.length

def push (line : Line) (token : Token) : Line where
  tokens := token :: line.tokens
  width := line.width + line.cost token

/-- Whether the line shows something and would be too wide with the token. -/
def overflows (width : Nat) (line : Line) (token : Token) : Bool :=
  line.width ≠ 0 && width < line.width + line.cost token

end Line

/-- The lines that the tokens fill, the first of which has been begun; each as its tokens in
order. -/
def packFrom (width : Nat) (line : Line) : List Token → List (List Token)
  | [] => if line.width = 0 then [] else [line.tokens.reverse]
  | token :: rest =>
      let full := line.overflows width token
      let begun := (if full then Line.empty else line).push token
      let later :=
        if token.isLineBreak && !rest.isEmpty then
          begun.tokens.reverse :: packFrom width .empty rest
        else packFrom width begun rest
      if full then line.tokens.reverse :: later else later

/-- The lines that the tokens fill, each as its tokens in order. -/
def pack (width : Nat) (tokens : List Token) : List (List Token) :=
  packFrom width .empty tokens

/-- The text of a line: a space before each spaced token with something before it. -/
def lineText (tokens : List Token) : List Char :=
  go true tokens
where
  /-- The text of the later tokens; `fresh` says that nothing stands before them. -/
  go (fresh : Bool) : List Token → List Char
    | [] => []
    | token :: rest =>
        if fresh then token.text ++ go token.text.isEmpty rest
        else token.spacedText ++ go false rest

/-- The tokens in lines of at most the width, as far as the tokens allow. -/
def layout (width : Nat) (tokens : List Token) : List Char :=
  ['\n'].intercalate ((pack width tokens).map lineText)

/-- The tokens in lines, for a width that is not zero. -/
def wrapTokens (tokens : List Token) (width : Nat) : Except WrapError (List Char) :=
  if width = 0 then .error .zeroWidth else .ok (layout width tokens)

end Refill

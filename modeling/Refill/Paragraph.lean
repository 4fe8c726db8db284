import Refill.Construct.BreakTag
import Refill.Construct.CodeSpan
import Refill.Construct.Link
import Refill.Packing

/-!
# Paragraphs

A paragraph is cut in stages: first at its code spans, then what is plain at its
links, then at its break tags, and at last into words. So what stands in a code span
is neither a link nor a break tag. `refill` packs the tokens into lines.
-/

namespace Refill.Paragraph

open Text

/-- A way to cut a text into tokens. -/
abbrev Stage : Type := List Char → List Token

/-- The words of a text, each but the first one spaced. -/
def wordTokens (text : List Char) : List Token :=
  match words text with
  | [] => []
  | first :: others => ⟨.word, first, false⟩ :: others.map (⟨.word, ·, true⟩)

/-- The first token spaced or not as said, and the others as they are. -/
def withSpacing (spaced : Bool) : List Token → List Token
  | [] => []
  | first :: others => { first with spaced } :: others

/-- Cuts a text in stages: what one stage leaves plain is cut by the later ones. What remains plain
after the last stage is a word. -/
def expand : List Stage → Bool → List Char → List Token
  | [], spaced, text => [⟨.word, text, spaced⟩]
  | stage :: stages, spaced, text =>
      (withSpacing spaced (stage text)).flatMap fun token =>
        if token.isPlain then expand stages token.spaced token.text else [token]

def stages : List Stage :=
  [CodeSpan.scanner.tokens, Link.scanner.tokens, BreakTag.scanner.tokens, wordTokens]

/-- The tokens of a paragraph; none of them is plain. -/
def tokens (text : List Char) : List Token :=
  expand stages false text

/-- The paragraph in lines of at most the width, as far as its tokens allow. -/
def fill (width : Nat) (text : List Char) : List Char :=
  layout width (tokens text)

/-- The paragraph in lines, for a width that is not zero. -/
def refill (text : List Char) (width : Nat) : Except WrapError (List Char) :=
  wrapTokens (tokens text) width

end Refill.Paragraph

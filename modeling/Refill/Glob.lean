/-!
# Path patterns

A pattern describes paths: `?` stands for any character, `*` for any number of them,
`[abc]` and `[a-z]` for one of a set and `[!abc]` for one outside of it. `**` has to
stand alone between slashes, or between a slash and an end of the pattern; it stands
for any number of directories. The slash is a character like any other for the rest.
-/

namespace Refill.Glob

/-- A member of a set of characters: the characters from the first to the last one. -/
structure CharRange where
  first : Char
  last : Char
  deriving DecidableEq, Repr

def CharRange.contains (range : CharRange) (c : Char) : Bool :=
  range.first ≤ c && c ≤ range.last

inductive Piece where
  | char (c : Char)
  | anyChar
  | oneOf (ranges : List CharRange)
  | noneOf (ranges : List CharRange)
  /-- Any characters. -/
  | sequence
  /-- Any directories, each with the slash behind it. -/
  | directories
  deriving DecidableEq, Repr

/-- The members of a set, as they are written between the brackets. -/
def charRanges : List Char → List CharRange
  | first :: '-' :: last :: rest => ⟨first, last⟩ :: charRanges rest
  | c :: rest => ⟨c, c⟩ :: charRanges rest
  | [] => []

/-- The text up to a closing bracket, which is not its first character, and what follows that. -/
def setBody? : List Char → Option (List Char × List Char)
  | [] => none
  | first :: rest =>
      let body := rest.takeWhile (· != ']')
      match rest.drop body.length with
      | [] => none
      | _ :: behind => some (first :: body, behind)

def set? (rest : List Char) : Option (Piece × List Char) :=
  match rest with
  | '!' :: rest => (setBody? rest).map fun (body, behind) => (.noneOf (charRanges body), behind)
  | rest => (setBody? rest).map fun (body, behind) => (.oneOf (charRanges body), behind)

/-- The pieces of what is left of a pattern. `separated` says that the pattern begins here or that a
slash stands before; `fuel` bounds the number of characters. -/
def parseFrom : (fuel : Nat) → (separated : Bool) → List Char → Option (List Piece)
  | 0, _, _ => none
  | _, _, [] => some []
  | fuel + 1, separated, c :: rest =>
      match c with
      | '?' => (parseFrom fuel false rest).map (.anyChar :: ·)
      | '*' =>
          match rest with
          | '*' :: rest =>
              if !separated then none
              else
                match rest with
                | [] => some [.directories]
                | '/' :: rest => (parseFrom fuel true rest).map (.directories :: ·)
                | _ => none
          | _ => (parseFrom fuel false rest).map (.sequence :: ·)
      | '[' =>
          match set? rest with
          | none => none
          | some (piece, behind) => (parseFrom fuel false behind).map (piece :: ·)
      | c => (parseFrom fuel (c == '/') rest).map (.char c :: ·)

def parse (pattern : List Char) : Option (List Piece) :=
  parseFrom (pattern.length + 1) true pattern

inductive Comparison where
  | matches
  | differs
  /-- The text ended before the pattern. A longer run for an earlier piece would not help. -/
  | ended
  deriving DecidableEq, Repr

/-- Tries the text from here and from every later place, after a slash if `slashed`. -/
def search (slashed : Bool) (compare : List Char → Comparison) : List Char → Comparison
  | [] => compare []
  | c :: rest =>
      if slashed && c != '/' then search slashed compare rest
      else
        match compare rest with
        | .differs => search slashed compare rest
        | found => found

def Piece.accepts (piece : Piece) (c : Char) : Bool :=
  match piece with
  | char expected => c == expected
  | anyChar => true
  | oneOf ranges => ranges.any (·.contains c)
  | noneOf ranges => !ranges.any (·.contains c)
  | sequence | directories => false

def compare : List Piece → List Char → Comparison
  | [], [] => .matches
  | [], _ :: _ => .differs
  | piece :: pieces, text =>
      if piece = .sequence || piece = .directories then
        match compare pieces text with
        | .differs => search (piece = .directories) (compare pieces) text
        | found => found
      else
        match text with
        | [] => .ended
        | c :: rest => if piece.accepts c then compare pieces rest else .differs

/-- Whether the path fits the pattern. Nothing fits a text that is no pattern. -/
def fits (pattern path : List Char) : Bool :=
  match parse pattern with
  | none => false
  | some pieces => compare pieces path = .matches

end Refill.Glob

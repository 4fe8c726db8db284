import Refill.Toml.Literal

/-!
# TOML statements

A document is a sequence of lines: a key with a value, the header of a table, or the
header of another element of an array of tables. Comments and blank lines say nothing.
-/

namespace Refill.Toml

/-- What a line of a document says. -/
inductive Statement where
  | pair (path : List Key) (value : Value)
  | header (path : List Key)
  | elementHeader (path : List Key)

/-! ## Between the statements -/

def skipBlanks (text : List Char) : List Char :=
  text.dropWhile fun c => c == ' ' || c == '\t'

/-- What follows a comment, if one is here; none if it holds a control character. -/
def skipComment? (text : List Char) : Option (List Char) :=
  match text with
  | '#' :: rest =>
      let behind := rest.dropWhile (!isControl ·)
      if behind.isEmpty || (Quoted.dropLineEnd? behind).isSome then some behind else none
  | text => some text

/-- What follows the blanks and the comment at the end of a line. -/
def skipLineEnd? (text : List Char) : Option (List Char) :=
  match skipComment? (skipBlanks text) with
  | none => none
  | some [] => some []
  | some behind => Quoted.dropLineEnd? behind

/-- What follows blanks, comments and line ends. `fuel` bounds the number of lines. -/
def skipFiller? : (fuel : Nat) → List Char → Option (List Char)
  | 0, _ => none
  | fuel + 1, text =>
      match skipComment? (skipBlanks text) with
      | none => none
      | some behind =>
          match Quoted.dropLineEnd? behind with
          | none => some behind
          | some next => skipFiller? fuel next

def skipLines? (text : List Char) : Option (List Char) :=
  skipFiller? (text.length + 1) text

/-! ## Keys -/

def isBareKey (c : Char) : Bool :=
  c.isAlphanum || c == '_' || c == '-'

def readKey (text : List Char) : Option (Key × List Char) :=
  match text with
  | '"' :: rest => Quoted.readBasic rest
  | '\'' :: rest => Quoted.readLiteral rest
  | text =>
      let key := text.takeWhile isBareKey
      if key.isEmpty then none else some (key, text.drop key.length)

/-- A key with its dots, and what follows the blanks behind it. `fuel` bounds the number of its
parts. -/
def readPath : (fuel : Nat) → List Char → Option (List Key × List Char)
  | 0, _ => none
  | fuel + 1, text =>
      match readKey text with
      | none => none
      | some (key, rest) =>
          match skipBlanks rest with
          | '.' :: rest =>
              (readPath fuel (skipBlanks rest)).map fun (path, rest) => (key :: path, rest)
          | rest => some ([key], rest)

/-! ## Values -/

/-- The elements of an array, and what follows its bracket. `fuel` bounds their number. -/
def readElements (read : List Char → Option (Value × List Char)) :
    (fuel : Nat) → List Char → Option (List Value × List Char)
  | 0, _ => none
  | fuel + 1, text =>
      match skipLines? text with
      | none => none
      | some (']' :: rest) => some ([], rest)
      | some text =>
          match read text with
          | none => none
          | some (value, rest) =>
              match skipLines? rest with
              | some (',' :: rest) =>
                  (readElements read fuel rest).map fun (values, rest) => (value :: values, rest)
              | some (']' :: rest) => some ([value], rest)
              | _ => none

/-- A key with its value, and what follows. -/
def readPair (read : List Char → Option (Value × List Char)) (text : List Char) :
    Option ((List Key × Value) × List Char) :=
  match readPath (text.length + 1) text with
  | some (path, '=' :: rest) =>
      (read (skipBlanks rest)).map fun (value, rest) => ((path, value), rest)
  | _ => none

/-- The pairs of a table between braces, and what follows. `fuel` bounds their number. -/
def readPairs (read : List Char → Option (Value × List Char)) :
    (fuel : Nat) → List Char → Option (List (List Key × Value) × List Char)
  | 0, _ => none
  | fuel + 1, text =>
      match skipLines? text with
      | none => none
      | some ('}' :: rest) => some ([], rest)
      | some text =>
          match readPair read text with
          | none => none
          | some (pair, rest) =>
              match skipLines? rest with
              | some (',' :: rest) =>
                  (readPairs read fuel rest).map fun (pairs, rest) => (pair :: pairs, rest)
              | some ('}' :: rest) => some ([pair], rest)
              | _ => none

namespace Table

/-- Whether a dotted key may lead through a table of this kind. -/
def isOpen : TableKind → Bool
  | .implied | .dotted => true
  | .headed | .braced => false

/-- The table with a value under a dotted key; none where the key is taken. The last table on the way
has to be one that only dotted keys brought about. -/
def add (value : Value) : List Key → Table → Option Table
  | [], _ => none
  | [key], table => if (table.value? key).isSome then none else some (table ++ [(key, value)])
  | key :: path, table =>
      match table.value? key with
      | none => (add value path []).map fun inside => table ++ [(key, .table .dotted inside)]
      | some (.table kind inside) =>
          if isOpen kind && (kind = .dotted || 1 < path.length) then
            (add value path inside).map fun inside => table.set key (.table kind inside)
          else none
      | some (.tables elements) =>
          match elements.getLast? with
          | some (.table kind inside) =>
              if 1 < path.length then
                (add value path inside).map fun inside =>
                  table.set key (.tables (elements.dropLast ++ [.table kind inside]))
              else none
          | _ => none
      | _ => none

/-- The table with these pairs added in order. -/
def addAll : List (List Key × Value) → Table → Option Table
  | [], table => some table
  | (path, value) :: pairs, table => (table.add value path).bind (addAll pairs)

end Table

/-- The number of arrays and tables that a value may stand in. -/
def depthLimit : Nat := 80

/-- The value in front, and what is left. `depth` bounds the number of arrays and tables around. -/
def readValue : (depth : Nat) → List Char → Option (Value × List Char)
  | depth, text =>
      match text with
      | '[' :: rest =>
          match depth with
          | 0 => none
          | depth + 1 =>
              (readElements (readValue depth) (rest.length + 1) rest).map fun (values, rest) =>
                (.array values, rest)
      | '{' :: rest =>
          match depth with
          | 0 => none
          | depth + 1 =>
              match readPairs (readValue depth) (rest.length + 1) rest with
              | none => none
              | some (pairs, rest) =>
                  (Table.addAll pairs []).map fun table => (.table .braced table, rest)
      | '"' :: _ | '\'' :: _ => (Quoted.read text).map fun (string, rest) => (.string string, rest)
      | text => Literal.read text

/-! ## Statements -/

def readHeader (close : List Char) (text : List Char) : Option (List Key × List Char) :=
  match readPath (text.length + 1) (skipBlanks text) with
  | none => none
  | some (path, rest) => (close.isPrefixOf? rest).map fun rest => (path, rest)

def readStatement (text : List Char) : Option (Statement × List Char) :=
  match text with
  | '[' :: '[' :: rest =>
      (readHeader "]]".toList rest).map fun (path, rest) => (.elementHeader path, rest)
  | '[' :: rest => (readHeader "]".toList rest).map fun (path, rest) => (.header path, rest)
  | text =>
      (readPair (readValue depthLimit) text).map fun ((path, value), rest) =>
        (.pair path value, rest)

/-- The statements of a document. `fuel` bounds their number. -/
def readStatements : (fuel : Nat) → List Char → Option (List Statement)
  | 0, _ => none
  | fuel + 1, text =>
      match skipLines? text with
      | none => none
      | some [] => some []
      | some text =>
          match readStatement text with
          | none => none
          | some (statement, rest) =>
              match skipLineEnd? rest with
              | none => none
              | some rest => (readStatements fuel rest).map (statement :: ·)

end Refill.Toml

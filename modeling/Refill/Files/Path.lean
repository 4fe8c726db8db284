import Refill.Text.Bytes

/-!
# Paths

A path is text whose steps are parted by slashes. It is kept as it is written, because
messages show it so; `steps` says where it leads.
-/

namespace Refill

abbrev Name : Type := List Char

abbrev Path : Type := List Char

namespace Name

/-- What follows the last dot; none without a dot, or if the name has only one in front. -/
def extension? (name : Name) : Option (List Char) :=
  let extension := (name.reverse.takeWhile (· != '.')).reverse
  if extension.length + 1 < name.length then some extension else none

def isMarkdown (name : Name) : Bool :=
  extension? name == some "md".toList

/-- The number of bytes that a name may have. -/
def limit : Nat := 255

def isTooLong (name : Name) : Bool :=
  limit < Text.byteLength name

end Name

namespace Path

inductive Step where
  | stay
  | up
  | enter (name : Name)
  deriving DecidableEq, Repr

def Step.ofName (name : Name) : Step :=
  if name = ['.'] then .stay
  else if name = ['.', '.'] then .up
  else .enter name

def pieces : Path → List (List Char)
  | [] => [[]]
  | c :: rest =>
      if c = '/' then [] :: pieces rest
      else
        match pieces rest with
        | [] => [[c]]
        | piece :: later => (c :: piece) :: later

/-- The steps of a path. Slashes that follow one another count as one. -/
def steps (path : Path) : List Step :=
  ((pieces path).filter (!·.isEmpty)).map Step.ofName

def isAbsolute (path : Path) : Bool :=
  path.head? == some '/'

def endsInSlash (path : Path) : Bool :=
  path.getLast? == some '/'

/-- The steps without those at the end that lead nowhere. -/
def dropStays (steps : List Step) : List Step :=
  (steps.reverse.dropWhile (· = .stay)).reverse

def parentSteps (path : Path) : List Step :=
  dropStays (dropStays path.steps).dropLast

def join (directory : Path) (name : Name) : Path :=
  if directory.endsInSlash then directory ++ name else directory ++ '/' :: name

def descend (directory : Path) (names : List Name) : Path :=
  names.foldl join directory

/-- The number of bytes that a path may have. -/
def limit : Nat := 4095

def isTooLong (path : Path) : Bool :=
  limit < Text.byteLength path

def hasNul (path : Path) : Bool :=
  path.contains '\x00'

end Path

end Refill

import Refill.Text.Alphanumeric

/-!
# Expanding paths

A path may begin with `~` for the home directory and name environment variables:
`$NAME`, `${NAME}`, or `${NAME:-default}` for a variable that may be unset. Two dollar
signs stand for one. What a variable holds is not expanded again.
-/

namespace Refill.PathExpansion

/-- What a path may refer to. -/
structure Environment where
  «variables» : List (List Char × List Char)
  /-- The home directory that the user's account has. -/
  accountHome : Option (List Char)

namespace Environment

def value? (environment : Environment) (name : List Char) : Option (List Char) :=
  (environment.«variables».find? (·.1 == name)).map Prod.snd

/-- The home directory: what the variable names, or else that of the account. -/
def home? (environment : Environment) : Option (List Char) :=
  match environment.value? "HOME".toList with
  | none | some [] => environment.accountHome
  | some home => some home

end Environment

def isName (c : Char) : Bool :=
  Text.isAlphanumeric c || c == '_'

/-- The text before the first place where the pattern stands, and the text behind the pattern. -/
def splitAt? (pattern : List Char) : List Char → Option (List Char × List Char)
  | [] => none
  | c :: rest =>
      if pattern.isPrefixOf (c :: rest) then some ([], (c :: rest).drop pattern.length)
      else (splitAt? pattern rest).map fun (before, behind) => (c :: before, behind)

/-- The value of what stands in braces: a name, perhaps with a default. -/
def bracedValue? (environment : Environment) (inner : List Char) : Option (List Char) :=
  match splitAt? ":-".toList inner with
  | some (c :: name, default) => some ((environment.value? (c :: name)).getD default)
  | _ => environment.value? inner

/-- The names of the variables that a path may refer to, and perhaps others. -/
def mentioned : List Char → List (List Char)
  | [] => []
  | '$' :: '{' :: rest =>
      let inner := rest.takeWhile (· != '}')
      inner :: ((splitAt? ":-".toList inner).map Prod.fst).toList ++ mentioned rest
  | '$' :: rest => rest.takeWhile isName :: mentioned rest
  | _ :: rest => mentioned rest

/-- The text with its variables expanded; none if one is unset and has no default. `fuel` bounds the
number of characters. -/
def expandVariables (environment : Environment) : (fuel : Nat) → List Char → Option (List Char)
  | 0, _ => none
  | _, [] => some []
  | fuel + 1, '$' :: rest =>
      match rest with
      | '{' :: inner =>
          match splitAt? ['}'] inner with
          | none => (expandVariables environment fuel inner).map ('$' :: '{' :: ·)
          | some (inner, behind) =>
              match bracedValue? environment inner with
              | none => none
              | some value => (expandVariables environment fuel behind).map (value ++ ·)
      | '$' :: behind => (expandVariables environment fuel behind).map ('$' :: ·)
      | rest =>
          let name := rest.takeWhile isName
          if name.isEmpty then (expandVariables environment fuel rest).map ('$' :: ·)
          else
            match environment.value? name with
            | none => none
            | some value =>
                (expandVariables environment fuel (rest.drop name.length)).map (value ++ ·)
  | fuel + 1, c :: rest => (expandVariables environment fuel rest).map (c :: ·)

/-- The path with the home directory in place of a tilde that stands for it. -/
def expandTilde (environment : Environment) (path : List Char) : List Char :=
  match path with
  | '~' :: rest =>
      if rest.head?.all (· == '/') then
        match environment.home? with
        | none => path
        | some home => home ++ rest
      else path
  | path => path

/-- The path with its variables and its tilde expanded; none if a variable is unset. A tilde that
comes from a variable stays. -/
def expand? (environment : Environment) (path : List Char) : Option (List Char) :=
  (expandVariables environment (path.length + 1) path).map fun expanded =>
    if path.head? == some '~' then expandTilde environment expanded else expanded

end Refill.PathExpansion

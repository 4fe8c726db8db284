/-!
# TOML values

A table knows how it came about, since that decides what may be added to it later.
Numbers with a fraction, dates and times are kept as they are written.
-/

namespace Refill.Toml

abbrev Key : Type := List Char

/-- The ways in which a table comes about. -/
inductive TableKind where
  /-- By its own header, or as an element of an array of tables. -/
  | headed
  /-- By the header of a table inside. -/
  | implied
  /-- By a dotted key. -/
  | dotted
  /-- Between braces. -/
  | braced
  deriving DecidableEq, Repr

inductive Value where
  | string (text : List Char)
  | integer (number : Int)
  | boolean (value : Bool)
  | float (literal : List Char)
  | moment (literal : List Char)
  | array (elements : List Value)
  | table (kind : TableKind) (entries : List (Key × Value))
  | tables (elements : List Value)

/-- The entries of a table, in the order in which they were added. -/
abbrev Table : Type := List (Key × Value)

namespace Table

def value? (key : Key) (table : Table) : Option Value :=
  (table.find? (·.1 = key)).map Prod.snd

/-- The table with the value under the key, in place of one that is there. -/
def set (key : Key) (value : Value) : Table → Table
  | [] => [(key, value)]
  | (other, old) :: rest =>
      if other = key then (key, value) :: rest else (other, old) :: set key value rest

end Table

end Refill.Toml

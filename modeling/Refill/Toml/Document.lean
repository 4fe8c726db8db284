import Refill.Toml.Statement

/-!
# TOML documents

The pairs in front belong to the root table; those behind a header belong to the table
that it names. A table has at most one header, and one header only adds to what headers
of tables inside have brought about.
-/

namespace Refill.Toml

/-- A header with the pairs that follow it. -/
structure Section where
  path : List Key
  /-- Whether it is another element of an array of tables. -/
  isElement : Bool
  pairs : List (List Key × Value)

def sections : List Statement → List (List Key × Value) × List Section
  | [] => ([], [])
  | statement :: statements =>
      let (pairs, later) := sections statements
      match statement with
      | .pair path value => ((path, value) :: pairs, later)
      | .header path => ([], ⟨path, false, pairs⟩ :: later)
      | .elementHeader path => ([], ⟨path, true, pairs⟩ :: later)

namespace Table

/-- The table with a change made to the one that the keys lead to. Of an array of tables it is the
last; a table that is missing is implied. -/
def change (edit : Table → Option Table) : List Key → Table → Option Table
  | [], table => edit table
  | key :: path, table =>
      match table.value? key with
      | none => (change edit path []).map fun inside => table.set key (.table .implied inside)
      | some (.table .braced _) => none
      | some (.table kind inside) =>
          (change edit path inside).map fun inside => table.set key (.table kind inside)
      | some (.tables elements) =>
          match elements.getLast? with
          | some (.table kind inside) =>
              (change edit path inside).map fun inside =>
                table.set key (.tables (elements.dropLast ++ [.table kind inside]))
          | _ => none
      | _ => none

/-- The table with a table under the key that has the pairs of a section. -/
def define (key : Key) (pairs : List (List Key × Value)) (table : Table) : Option Table :=
  match table.value? key with
  | none => (addAll pairs []).map fun inside => table.set key (.table .headed inside)
  | some (.table .implied inside) =>
      (addAll pairs inside).map fun inside => table.set key (.table .headed inside)
  | _ => none

/-- The table with one more element in the array of tables under the key. -/
def append (key : Key) (pairs : List (List Key × Value)) (table : Table) : Option Table :=
  match table.value? key with
  | none => (addAll pairs []).map fun inside => table.set key (.tables [.table .headed inside])
  | some (.tables elements) =>
      (addAll pairs []).map fun inside =>
        table.set key (.tables (elements ++ [.table .headed inside]))
  | _ => none

def addSections : List Section → Table → Option Table
  | [], table => some table
  | part :: later, table =>
      match part.path.getLast? with
      | none => none
      | some key =>
          let edit := if part.isElement then append key part.pairs else define key part.pairs
          (change edit part.path.dropLast table).bind (addSections later)

end Table

/-- A mark of the byte order in front of a document says nothing. -/
def dropByteOrderMark (text : List Char) : List Char :=
  match text with
  | '\uFEFF' :: rest => rest
  | text => text

/-- The root table of a document; none if it is not well-formed. -/
def read (text : List Char) : Option Table :=
  match readStatements (text.length + 1) (dropByteOrderMark text) with
  | none => none
  | some statements =>
      let (pairs, later) := sections statements
      (Table.addAll pairs []).bind (Table.addSections later)

end Refill.Toml

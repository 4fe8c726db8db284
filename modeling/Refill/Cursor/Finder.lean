import Refill.Cursor

/-!
# Finding a character again and again

A scan that tries one opening bracket after another asks for the next closing one
each time. A `Finder` remembers its latest search: where it started and what it found.
A question about any place in the stretch that search went over has the same answer,
so the scan as a whole goes over the text once.
-/

namespace Refill

/-- A search for a character from a place on. -/
structure Search (text : List Char) (target : Char) where
  origin : Cursor text
  found : Option (Cursor text)
  found_eq : found = origin.find target

/-- The searches for one character in one text, of which the latest is remembered. -/
structure Finder (text : List Char) (target : Char) where
  latest : Option (Search text target)

namespace Finder

variable {text : List Char} {target : Char}

def new : Finder text target where
  latest := none

/-- Whether the search went over the place: no later than what it found, if anything. -/
def covers (search : Search text target) (place : Cursor text) : Bool :=
  search.origin.offset ≤ place.offset &&
    search.found.all (fun found => place.offset ≤ found.offset)

/-- The next occurrence at or behind the place, and what is remembered then. -/
def find (finder : Finder text target) (place : Cursor text) :
    Option (Cursor text) × Finder text target :=
  match finder.latest.filter (covers · place) with
  | some search => (search.found, finder)
  | none =>
      let search : Search text target := ⟨place, place.find target, rfl⟩
      (search.found, { latest := some search })

theorem peek_of_find {finder : Finder text target} {place found : Cursor text}
    (find_eq : (finder.find place).1 = some found) : found.peek = some target := by
  unfold find at find_eq
  split at find_eq
  next search _ => exact Cursor.peek_of_find (search.found_eq.symm.trans find_eq)
  · exact Cursor.peek_of_find find_eq

theorem length_rest_find_le {finder : Finder text target} {place found : Cursor text}
    (boundary : place.IsBoundary) (find_eq : (finder.find place).1 = some found) :
    found.rest.length ≤ place.rest.length := by
  have found_boundary := Cursor.isBoundary_of_peek (peek_of_find find_eq)
  unfold find at find_eq
  split at find_eq
  next search covered =>
    obtain ⟨_, covered⟩ := Option.filter_eq_some_iff.mp covered
    apply boundary.length_rest_le found_boundary
    simp only [covers, Bool.and_eq_true, decide_eq_true_eq] at covered find_eq
    simpa [find_eq] using covered.2
  · exact Cursor.length_rest_find_le find_eq

end Finder

end Refill

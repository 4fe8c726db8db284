import Refill.Markdown.Container

/-!
# Definitions of links

A paragraph may begin with definitions: a label, a colon, a destination and perhaps a
title. Their parts may stand on lines of their own, as long as those lines would go on
the paragraph.
-/

namespace Refill.Markdown

/-- What stands before the text of a line on which a part of a definition goes on; none if the line
would end a paragraph. A line that is indented by four columns does not. -/
def continuation? (containers : List Container) (place : Place) : Option Margin :=
  let (current, margin) := Container.enterAll containers place
  let (indented, margin) := margin.indentBy 4
  if !indented && endsParagraph containers current margin.place then none else some margin

/-- The blanks before a part of a definition. -/
structure DefinitionGap where
  behind : Place
  /-- Whether a line ends in them. -/
  broken : Bool

/-- The blanks at a place, with at most one line end. -/
def definitionGap? (containers : List Container) (place : Place) : Option DefinitionGap :=
  let place := place.advance (lengthWhile isGap place.rest)
  match lineEnd? place.rest with
  | none => some ⟨place, false⟩
  | some length =>
      match continuation? containers (place.advance length) with
      | none => none
      | some margin =>
          let behind := margin.place.advance (lengthWhile isGap margin.rest)
          if (lineEnd? behind.rest).isSome then none else some ⟨behind, true⟩

/-- The place behind a title of a definition, which may go on over several lines; `fuel` bounds the
number of its characters. -/
def definitionTitle? (containers : List Container) (fuel : Nat) (place : Place) : Option Place :=
  match place.rest.head?.bind titleClose? with
  | none => none
  | some close => go close fuel (place.advance 1)
where
  go (close : Char) : (fuel : Nat) → Place → Option Place
    | 0, _ => none
    | fuel + 1, place =>
        match place.rest with
        | [] => none
        | '\\' :: _ :: _ => go close fuel (place.advance 2)
        | c :: _ =>
            if c == close then some (place.advance 1)
            else if isLineEnd c then
              match continuation? containers
                  (place.advance ((lineEnd? place.rest).getD 1)) with
              | none => none
              | some margin =>
                  let margin := margin.skipIndent
                  if margin.atLineEnd then none else go close fuel margin.place
            else go close fuel (place.advance 1)

/-- The place behind what may follow a colon in a definition: a destination, and a title that a
blank line follows. Without that, the destination has to end its line. -/
def definitionBody? (containers : List Container) (fuel : Nat) (place : Place) : Option Place :=
  match definitionGap? containers place with
  | none => none
  | some gap =>
      match destination? 5 gap.behind.rest with
      | none => none
      | some 0 => none
      | some length =>
          let bare := gap.behind.advance length
          match definitionGap? containers bare with
          | none => some bare
          | some gap =>
              if gap.behind.offset == bare.offset then none
              else
                match definitionTitle? containers fuel gap.behind with
                | some titled =>
                    if isBlankLine titled.rest then some titled
                    else if gap.broken then some bare
                    else none
                | none => if gap.broken then some bare else none

/-- The label of the definition at the place, and the place behind the definition and the blanks
that end its line; `fuel` bounds the number of its characters. -/
def definition? (containers : List Container) (fuel : Nat) (place : Place) :
    Option (List Char × Place) :=
  if place.rest.head? == some '[' then
    match label? (labelBreak containers) (place.rest.drop 1) with
    | none => none
    | some (length, name) =>
        if (place.rest.drop (1 + length)).head? == some ':' then
          match definitionBody? containers fuel (place.advance (1 + length + 1)) with
          | none => none
          | some behind => some (name, behind.advance ((blankLine? behind.rest).getD 0))
        else none
  else none
where
  /-- What a label passes over behind a line end. -/
  labelBreak (containers : List Container) (rest : List Char) : Option Nat :=
    let (current, margin) := Container.enterAll containers ⟨0, rest⟩
    if interrupts containers current margin.place ||
        (current && (underline? margin.rest).isSome) then none
    else some margin.place.offset

end Refill.Markdown

/-!
# TOML dates and times

A date, a time, or both with `T`, `t` or a blank between them and perhaps an offset from
universal time behind.
-/

namespace Refill.Toml.Moment

/-- A number of exactly so many digits, and what follows. -/
def number? (count : Nat) (text : List Char) : Option (Nat × List Char) :=
  let digits := text.take count
  if digits.length = count && digits.all Char.isDigit then
    some (Nat.ofDigitChars 10 digits 0, text.drop count)
  else none

def isLeapYear (year : Nat) : Bool :=
  year % 4 = 0 && (year % 100 ≠ 0 || year % 400 = 0)

def daysInMonth (year month : Nat) : Nat :=
  if month = 2 then (if isLeapYear year then 29 else 28)
  else if month = 4 || month = 6 || month = 9 || month = 11 then 30
  else 31

def dropDate? (text : List Char) : Option (List Char) :=
  match number? 4 text with
  | some (year, '-' :: text) =>
      match number? 2 text with
      | some (month, '-' :: text) =>
          match number? 2 text with
          | some (day, rest) =>
              if 1 ≤ month && month ≤ 12 && 1 ≤ day && day ≤ daysInMonth year month then some rest
              else none
          | none => none
      | _ => none
  | _ => none

/-- What follows the digits of a fraction, of which there is at least one. -/
def dropFraction? (text : List Char) : Option (List Char) :=
  match text with
  | '.' :: digits =>
      if digits.head?.any Char.isDigit then some (digits.dropWhile Char.isDigit) else none
  | text => some text

/-- What follows a time. It need not have seconds. -/
def dropTime? (text : List Char) : Option (List Char) :=
  match number? 2 text with
  | some (hour, ':' :: text) =>
      match number? 2 text with
      | some (minute, text) =>
          if 23 < hour || 59 < minute then none
          else
            match text with
            | ':' :: text =>
                match number? 2 text with
                | some (second, text) => if 60 < second then none else dropFraction? text
                | none => none
            | text => some text
      | none => none
  | _ => none

def dayLength : Nat := 24 * 60

/-- Whether the text is an offset from universal time, or nothing. -/
def isOffset (text : List Char) : Bool :=
  match text with
  | [] | ['Z'] | ['z'] => true
  | sign :: text =>
      (sign == '+' || sign == '-') &&
        match number? 2 text with
        | some (hours, ':' :: text) =>
            match number? 2 text with
            | some (minutes, []) => minutes < 60 && hours * 60 + minutes ≤ dayLength
            | _ => false
        | _ => false

def isDate (text : List Char) : Bool :=
  dropDate? text == some []

def isMoment (text : List Char) : Bool :=
  match dropDate? text with
  | none => dropTime? text == some []
  | some [] => true
  | some (separator :: text) =>
      (separator == 'T' || separator == 't' || separator == ' ') &&
        match dropTime? text with
        | none => false
        | some offset => isOffset offset

end Refill.Toml.Moment

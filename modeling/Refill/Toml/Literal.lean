import Refill.Toml.Moment
import Refill.Toml.Quoted
import Refill.Toml.Value

/-!
# TOML numbers, booleans and moments

The values that stand without marks. They reach up to the next blank or mark.
-/

namespace Refill.Toml.Literal

/-- The digits of a number, with an underscore allowed between two of them. -/
def digits? (isDigit : Char → Bool) : List Char → Option (List Char)
  | [] => none
  | [c] => if isDigit c then some [c] else none
  | c :: '_' :: rest => if isDigit c then (digits? isDigit rest).map (c :: ·) else none
  | c :: rest => if isDigit c then (digits? isDigit rest).map (c :: ·) else none

/-- The decimal digits of a number, without needless zeros in front. -/
def wholeDigits? (text : List Char) : Option (List Char) :=
  match digits? Char.isDigit text with
  | some ('0' :: _ :: _) => none
  | found => found

/-- The integers that can be held: the signed and the unsigned ones of 128 bits. -/
def isHeld (number : Int) : Bool :=
  -Int.pow 2 127 ≤ number && number < Int.pow 2 128

def splitSign (text : List Char) : Option Char × List Char :=
  match text with
  | '+' :: rest => (some '+', rest)
  | '-' :: rest => (some '-', rest)
  | rest => (none, rest)

/-- A number with a mark for its base. -/
def basedInteger? (text : List Char) : Option Nat :=
  match text with
  | '0' :: 'x' :: rest =>
      (digits? (fun c => (Quoted.hexValue? c).isSome) rest).bind (Quoted.hexNumber? 0)
  | '0' :: 'o' :: rest =>
      (digits? (fun c => '0' ≤ c && c ≤ '7') rest).map (Nat.ofDigitChars 8 · 0)
  | '0' :: 'b' :: rest =>
      (digits? (fun c => c == '0' || c == '1') rest).map (Nat.ofDigitChars 2 · 0)
  | _ => none

def integer? (text : List Char) : Option Int :=
  match basedInteger? text with
  | some number => some number
  | none =>
      let (sign, text) := splitSign text
      (wholeDigits? text).map fun digits =>
        let number : Int := Nat.ofDigitChars 10 digits 0
        if sign = some '-' then -number else number

/-- The parts of a number with a fraction or an exponent. -/
structure Decimal where
  whole : List Char
  fraction : List Char
  exponent : Int

def exponent? (text : List Char) : Option Int :=
  match text with
  | [] => some 0
  | mark :: text =>
      if mark = 'e' || mark = 'E' then
        let (sign, text) := splitSign text
        (digits? Char.isDigit text).map fun digits =>
          let number : Int := Nat.ofDigitChars 10 digits 0
          if sign = some '-' then -number else number
      else none

def isExponentMark (c : Char) : Bool :=
  c == 'e' || c == 'E'

def decimal? (text : List Char) : Option Decimal :=
  let whole := text.takeWhile fun c => c != '.' && !isExponentMark c
  let behind := text.drop whole.length
  match wholeDigits? whole with
  | none => none
  | some digits =>
      match behind with
      | [] => none
      | '.' :: text =>
          let fraction := text.takeWhile (!isExponentMark ·)
          match digits? Char.isDigit fraction, exponent? (text.drop fraction.length) with
          | some fraction, some exponent => some ⟨digits, fraction, exponent⟩
          | _, _ => none
      | behind => (exponent? behind).map fun exponent => ⟨digits, [], exponent⟩

/-- The least number that is too large for a double-precision value. -/
def overflow : Nat := Nat.pow 2 1024 - Nat.pow 2 970

/-- Whether the number is finite in double precision. A number with more than 400 digits before the
point is not, unless it is zero, and one with less than one is. -/
def Decimal.isFinite (decimal : Decimal) : Bool :=
  let digits := (decimal.whole ++ decimal.fraction).dropWhile (· == '0')
  let mantissa := Nat.ofDigitChars 10 digits 0
  let exponent := decimal.exponent - decimal.fraction.length
  let size := digits.length + exponent
  if mantissa = 0 || size < 1 then true
  else if 400 < size then false
  else if 0 ≤ exponent then mantissa * Nat.pow 10 exponent.toNat < overflow
  else mantissa < overflow * Nat.pow 10 (-exponent).toNat

def isFloat (text : List Char) : Bool :=
  let text := (splitSign text).2
  text == "inf".toList || text == "nan".toList || (decimal? text).any Decimal.isFinite

def value? (text : List Char) : Option Value :=
  if text = "true".toList then some (.boolean true)
  else if text = "false".toList then some (.boolean false)
  else
    match integer? text with
    | some number => if isHeld number then some (.integer number) else none
    | none =>
        if isFloat text then some (.float text)
        else if Moment.isMoment text then some (.moment text)
        else none

/-- Whether the character ends a value without marks. -/
def isEnd (c : Char) : Bool :=
  " \t\r\n#,=[]{}".toList.contains c

/-- The text of the value in front. A time may follow a date behind one blank. -/
def front (text : List Char) : List Char :=
  let first := text.takeWhile (!isEnd ·)
  match text.drop first.length with
  | ' ' :: rest =>
      if Moment.isDate first && rest.head?.any Char.isDigit then
        first ++ ' ' :: rest.takeWhile (!isEnd ·)
      else first
  | _ => first

def read (text : List Char) : Option (Value × List Char) :=
  let literal := front text
  (value? literal).map fun value => (value, text.drop literal.length)

end Refill.Toml.Literal

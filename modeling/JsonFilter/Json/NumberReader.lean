import JsonFilter.Json.ReadError
import JsonFilter.Json.Value
import JsonFilter.Numeric.DecimalText

/-!
# Reading JSON numbers

A whole number that fits in 64 bits is an integer; a minus sign before a nonzero magnitude of at most
`2 ^ 63` gives a negative one.  Every other number is a float, read the quick way: the digits go
into a significand of 64 bits for as long as they fit, the others only move the exponent or are
dropped, and `Binary64.ofPowers?` scales the significand.
-/

namespace JsonFilter.Json

/-- A fault in a number, the characters before it, and whether its place is one byte further. -/
structure NumberFault where
  fault : ReadFault
  offset : Nat
  beyond : Bool
deriving Repr

/-- A significand, a decimal exponent, and whether a digit was left out. -/
structure Significand where
  value : Nat
  exponent : Int
  full : Bool
deriving Repr

namespace Significand

/-- Whether one more digit fits in 64 bits. -/
def fits (s : Significand) (digit : Char) : Bool :=
  s.value * 10 + digitsValue [digit] < twoTo 64

/-- One more digit before the point; after the first that does not fit, they all move the
exponent. -/
def pushWhole (s : Significand) (digit : Char) : Significand :=
  if s.full || !s.fits digit then { s with exponent := s.exponent + 1, full := true }
  else { s with value := s.value * 10 + digitsValue [digit] }

/-- One more digit behind the point; after the first that does not fit, they are all dropped. -/
def pushFraction (s : Significand) (digit : Char) : Significand :=
  if s.full || !s.fits digit then { s with full := true }
  else { s with value := s.value * 10 + digitsValue [digit], exponent := s.exponent - 1 }

/-- The significand of the digits before the point. -/
def ofWhole (digits : List Char) : Significand := digits.foldl pushWhole ⟨0, 0, false⟩

/-- The significand with the digits behind the point. -/
def withFraction (s : Significand) (digits : List Char) : Significand :=
  digits.foldl pushFraction { s with full := false }

end Significand

/-- Exponents are kept in 31 bits. -/
def exponentLimit : Nat := twoTo 31

/-- How many of the digits bring the exponent to its limit, if they do. -/
def digitsToOverflow? : List Char → Nat → Nat → Option Nat
  | [], _, _ => none
  | d :: rest, value, count =>
    let value := value * 10 + digitsValue [d]
    if exponentLimit ≤ value then some (count + 1) else digitsToOverflow? rest value (count + 1)

/-- A float as a number; `offset` is where an overflow is noticed. -/
def floatNumber (negative : Bool) (significand : Nat) (exponent : Int) (offset : Nat) :
    Except NumberFault Number :=
  match Binary64.ofPowers? negative significand exponent with
  | some (.finite x) => .ok (.float x)
  | _ => .error ⟨.numberOutOfRange, offset, false⟩

/-- Reads the exponent at its mark, `offset` characters into the number: the number and its whole
length. -/
def readExponent (negative : Bool) (s : Significand) (text : List Char) (offset : Nat) :
    Except NumberFault (Number × Nat) :=
  let afterMark := text.drop 1
  let signed := afterMark.head? == some '+' || afterMark.head? == some '-'
  let below := afterMark.head? == some '-'
  let width := if signed then 2 else 1
  let digits := (text.drop width).takeWhile Char.isDigit
  if digits.isEmpty then
    match text.drop width with
    | [] => .error ⟨.endInValue, offset + width, false⟩
    | _ => .error ⟨.invalidNumber, offset + width, true⟩
  else
    let stop := offset + width + digits.length
    match digitsToOverflow? digits 0 0 with
    | some count =>
      if s.value ≠ 0 && !below then .error ⟨.numberOutOfRange, offset + width + count, false⟩
      else .ok (.float (.zero negative), stop)
    | none =>
      let e : Int := digitsValue digits
      (floatNumber negative s.value (if below then s.exponent - e else s.exponent + e) stop).map
        (·, stop)

/-- Whether a text starts with the mark of an exponent. -/
def startsExponent (text : List Char) : Bool :=
  text.head? == some 'e' || text.head? == some 'E'

/-- The number of digits that may be followed by an exponent, as a float. -/
def readScaled (negative : Bool) (s : Significand) (text : List Char) (offset : Nat) :
    Except NumberFault (Number × Nat) :=
  if startsExponent text then readExponent negative s text offset
  else (floatNumber negative s.value s.exponent offset).map (·, offset)

/-- A whole number without point and exponent. -/
def wholeNumber (negative : Bool) (magnitude : Nat) : Number :=
  if !negative then .integer magnitude
  else if 0 < magnitude && magnitude ≤ twoTo 63 then .integer (-(magnitude : Int))
  else
    match Binary64.ofInt magnitude with
    | .finite x => .float x.neg
    | _ => .float (.largest true)

/-- Reads what follows the digits before the point, `offset` characters into the number: the number
and its whole length. -/
def readTail (negative : Bool) (s : Significand) (text : List Char) (offset : Nat) :
    Except NumberFault (Number × Nat) :=
  match text with
  | '.' :: rest =>
    let digits := rest.takeWhile Char.isDigit
    if digits.isEmpty then
      .error ⟨if rest.isEmpty then .endInValue else .invalidNumber, offset + 1, true⟩
    else
      readScaled negative (s.withFraction digits) (rest.drop digits.length)
        (offset + 1 + digits.length)
  | _ =>
    if s.full || startsExponent text then readScaled negative s text offset
    else .ok (wholeNumber negative s.value, offset)

/-- Reads the number at the head of a text, a minus sign before it already seen or not: the number
and its length, the sign included. -/
def readNumber (text : List Char) : Except NumberFault (Number × Nat) :=
  let negative := text.head? == some '-'
  let start := if negative then 1 else 0
  let body := text.drop start
  let digits := body.takeWhile Char.isDigit
  match digits with
  | [] =>
    match body with
    | [] => .error ⟨.endInValue, start, false⟩
    | _ => .error ⟨.invalidNumber, start, true⟩
  | '0' :: _ :: _ => .error ⟨.invalidNumber, start + 1, true⟩
  | _ => readTail negative (.ofWhole digits) (body.drop digits.length) (start + digits.length)

end JsonFilter.Json

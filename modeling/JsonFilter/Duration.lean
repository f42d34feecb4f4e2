import JsonFilter.Numeric.DecimalText

/-!
# Durations

A duration is a whole number of nanoseconds, of fewer than `2 ^ 64` seconds.  Seconds given as a
binary64 number are rounded to the nearest nanosecond, a tie going to the even one.
-/

namespace JsonFilter

/-- A whole number of nanoseconds. -/
structure Duration where
  nanoseconds : Nat
deriving DecidableEq, Repr, Inhabited

/-- Why a number of seconds is no duration. -/
inductive DurationFault where
  | negative
  /-- Too many seconds, or not a number. -/
  | tooLong
deriving DecidableEq, Repr

/-- The wording. -/
def DurationFault.message : DurationFault → String
  | .negative => "cannot convert float seconds to Duration: value is negative"
  | .tooLong => "cannot convert float seconds to Duration: value is either too big or NaN"

namespace Duration

/-- The nanoseconds of a second. -/
def perSecond : Nat := tenTo 9

/-- The number of seconds from which on there are no durations. -/
def secondsLimit : Nat := twoTo 64

/-- No time at all. -/
def zero : Duration := ⟨0⟩

/-- Whole microseconds. -/
def ofMicroseconds (n : Nat) : Duration := ⟨n * 1000⟩

/-- The whole microseconds of a duration. -/
def microseconds (d : Duration) : Nat := d.nanoseconds / 1000

/-- The duration of a number of seconds. -/
def ofSeconds (seconds : Binary64) : Except DurationFault Duration :=
  match seconds with
  | .nan => .error .tooLong
  | .infinite negative => .error (if negative then .negative else .tooLong)
  | .finite x =>
    if x.isZero then .ok zero
    else if x.negative then .error .negative
    else if secondsLimit ≤ x.truncated then .error .tooLong
    else if 0 ≤ x.exponent then
      .ok ⟨x.significand * twoTo x.exponent.toNat * perSecond⟩
    else .ok ⟨roundQuotient (x.significand * perSecond) (twoTo (-x.exponent).toNat)⟩

/-- The number of seconds: the whole ones and the fraction, each rounded, and their sum. -/
def toSeconds (d : Duration) : Binary64 :=
  .add (.ofInt (d.nanoseconds / perSecond : Nat))
    (.div (.ofInt (d.nanoseconds % perSecond : Nat)) (.ofInt perSecond))

/-- Digits behind a point, padded to their number of places, without the zeros at their end. -/
def fractionText (places n : Nat) : List Char :=
  let digits := decimalDigits n
  let padded := List.replicate (places - digits.length) '0' ++ digits
  match (padded.reverse.dropWhile (· = '0')).reverse with
  | [] => []
  | shown => '.' :: shown

/-- A number of nanoseconds in a unit of `10 ^ places` of them. -/
def inUnit (n places : Nat) (unit : String) : String :=
  .ofList (decimalDigits (n / tenTo places) ++ fractionText places (n % tenTo places)) ++ unit

/-- The text of a duration, in the largest of seconds, milliseconds, microseconds and nanoseconds
of which there is at least one. -/
def text (d : Duration) : String :=
  let n := d.nanoseconds
  if tenTo 9 ≤ n then inUnit n 9 "s"
  else if tenTo 6 ≤ n then inUnit n 6 "ms"
  else if tenTo 3 ≤ n then inUnit n 3 "µs"
  else inUnit n 0 "ns"

end Duration
end JsonFilter

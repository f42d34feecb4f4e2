import JsonFilter.Numeric.Powers

/-!
# Binary64 numbers

A finite binary64 number is a sign, a natural significand and a power of two; the two infinities
and one not-a-number complete the format.  Every operation of this library computes the exact
rational result first and rounds it once, to the nearest representable value, a tie going to the
even significand.  No machine float takes part, so each operation is a function on naturals.

## The rounding

`roundRatio` takes a sign and a ratio of naturals.  It chooses the power of two that leaves 53
significant bits (never below the least power, where the subnormals live) and rounds the scaled
quotient with `roundQuotient`.  Beyond the largest finite value the result is infinite.
-/

namespace JsonFilter

/-- The quotient of two naturals rounded to the nearest natural, a tie going to the even one. -/
def roundQuotient (num den : Nat) : Nat :=
  let q := num / den
  let r := num % den
  if 2 * r < den then q
  else if den < 2 * r then q + 1
  else if q % 2 = 0 then q
  else q + 1

/-- A finite binary64 number: `significand * 2 ^ exponent`, with a sign that zero has too. -/
structure Finite64 where
  negative : Bool
  significand : Nat
  exponent : Int
deriving DecidableEq, Repr, Inhabited

/-- A binary64 number: finite, infinite or not a number. -/
inductive Binary64 where
  | nan
  | infinite (negative : Bool)
  | finite (value : Finite64)
deriving DecidableEq, Repr, Inhabited

namespace Finite64

/-- The power of two under the last bit of the smallest numbers. -/
def minExponent : Int := -1074

/-- The power of two under the last bit of the largest numbers. -/
def maxExponent : Int := 971

/-- The first significand that does not fit in 53 bits. -/
def significandLimit : Nat := twoTo 53

/-- Zero with the given sign. -/
def zero (negative : Bool) : Finite64 := ⟨negative, 0, minExponent⟩

/-- The largest finite magnitude, with the given sign. -/
def largest (negative : Bool) : Finite64 := ⟨negative, significandLimit - 1, maxExponent⟩

/-- Both zeros count as zero. -/
def isZero (x : Finite64) : Bool := x.significand == 0

/-- The same number with the other sign. -/
def neg (x : Finite64) : Finite64 := { x with negative := !x.negative }

/-- The magnitude. -/
def abs (x : Finite64) : Finite64 := { x with negative := false }

/-- The significand with its sign. -/
def signedSignificand (x : Finite64) : Int :=
  if x.negative then -(x.significand : Int) else x.significand

/-- The significand of `x` counted in units of `2 ^ exponent`, for an exponent not above its own. -/
def scaledTo (x : Finite64) (exponent : Int) : Int :=
  x.signedSignificand * (twoTo (x.exponent - exponent).toNat : Nat)

/-- The order of the values; the two zeros are equal. -/
def compare (x y : Finite64) : Ordering :=
  let e := min x.exponent y.exponent
  Ord.compare (x.scaledTo e) (y.scaledTo e)

/-- The magnitude without its fraction. -/
def truncated (x : Finite64) : Nat :=
  if 0 ≤ x.exponent then x.significand * twoTo x.exponent.toNat
  else x.significand / twoTo (-x.exponent).toNat

/-- Nothing stands behind the point. -/
def isIntegral (x : Finite64) : Bool :=
  0 ≤ x.exponent || x.significand % twoTo (-x.exponent).toNat == 0

/-- The integer part, the fraction cut off. -/
def toInt (x : Finite64) : Int :=
  if x.negative then -(x.truncated : Int) else x.truncated

/-- The greatest integer that is not above the value. -/
def floorInt (x : Finite64) : Int :=
  if x.negative && !x.isIntegral then x.toInt - 1 else x.toInt

/-- The least integer that is not below the value. -/
def ceilInt (x : Finite64) : Int :=
  if !x.negative && !x.isIntegral then x.toInt + 1 else x.toInt

end Finite64

namespace Binary64

/-- Rounds `num / den * 2 ^ exponent`, the power already chosen. -/
def roundAt (negative : Bool) (num den : Nat) (exponent : Int) : Binary64 :=
  let significand :=
    if 0 ≤ exponent then roundQuotient num (den * twoTo exponent.toNat)
    else roundQuotient (num * twoTo (-exponent).toNat) den
  let carried := significand == Finite64.significandLimit
  let significand := if carried then significand / 2 else significand
  let exponent := if carried then exponent + 1 else exponent
  if Finite64.maxExponent < exponent then .infinite negative
  else .finite ⟨negative, significand, exponent⟩

/-- The power of two that leaves 53 bits before the point of `num / den`, or the least power. -/
def ratioExponent (num den : Nat) : Int :=
  let guess : Int := (num.log2 : Int) - den.log2 - 52
  let short : Bool :=
    if 0 ≤ guess then num < den * twoTo (52 + guess.toNat)
    else num * twoTo (-guess).toNat < den * twoTo 52
  max (if short then guess - 1 else guess) Finite64.minExponent

/-- The binary64 number nearest to the ratio of two naturals, with the given sign. -/
def roundRatio (negative : Bool) (num den : Nat) : Binary64 :=
  if num = 0 then .finite (.zero negative)
  else roundAt negative num den (ratioExponent num den)

/-- The binary64 number nearest to `significand * 2 ^ exponent`. -/
def roundScaled (negative : Bool) (significand : Nat) (exponent : Int) : Binary64 :=
  if 0 ≤ exponent then roundRatio negative (significand * twoTo exponent.toNat) 1
  else roundRatio negative significand (twoTo (-exponent).toNat)

/-- The binary64 number nearest to an integer. -/
def ofInt (i : Int) : Binary64 := roundRatio (i < 0) i.natAbs 1

/-- The binary64 number nearest to `significand * 10 ^ exponent`. -/
def ofDecimal (negative : Bool) (significand : Nat) (exponent : Int) : Binary64 :=
  if 0 ≤ exponent then roundRatio negative (significand * tenTo exponent.toNat) 1
  else roundRatio negative significand (tenTo (-exponent).toNat)

/-- Positive zero. -/
def zero : Binary64 := .finite (.zero false)

/-- The number one. -/
def one : Binary64 := ofInt 1

/-! ### The interchange format -/

/-- The number of a 64-bit word: a sign bit, eleven exponent bits and 52 fraction bits. -/
def ofBits (bits : UInt64) : Binary64 :=
  let word := bits.toNat
  let negative := word / twoTo 63 == 1
  let biased : Nat := word / twoTo 52 % twoTo 11
  let fraction := word % twoTo 52
  if biased = 2047 then (if fraction = 0 then .infinite negative else .nan)
  else if biased = 0 then .finite ⟨negative, fraction, Finite64.minExponent⟩
  else .finite ⟨negative, fraction + twoTo 52, (biased : Int) - 1075⟩

/-- The 64-bit word of a number; the not-a-number is the quiet one without a sign. -/
def toBits (x : Binary64) : UInt64 :=
  let signBit (negative : Bool) : Nat := if negative then twoTo 63 else 0
  match x with
  | .nan => .ofNat (2047 * twoTo 52 + twoTo 51)
  | .infinite negative => .ofNat (signBit negative + 2047 * twoTo 52)
  | .finite v =>
    if v.significand < twoTo 52 then .ofNat (signBit v.negative + v.significand)
    else
      .ofNat (signBit v.negative + (v.exponent + 1075).toNat * twoTo 52 + (v.significand - twoTo 52))

/-! ### Tests and order -/

/-- Whether the number is not a number. -/
def isNaN : Binary64 → Bool
  | .nan => true
  | _ => false

/-- Whether the number is neither infinite nor a not-a-number. -/
def isFinite : Binary64 → Bool
  | .finite _ => true
  | _ => false

/-- The order of two numbers; nothing compares with a not-a-number. -/
def compare? : Binary64 → Binary64 → Option Ordering
  | .nan, _ => none
  | _, .nan => none
  | .finite x, .finite y => some (x.compare y)
  | .infinite x, .infinite y =>
    some (if x = y then .eq else if x then .lt else .gt)
  | .infinite x, .finite _ => some (if x then .lt else .gt)
  | .finite _, .infinite y => some (if y then .gt else .lt)

/-- Strictly below; false where a not-a-number takes part. -/
def lt (x y : Binary64) : Bool := compare? x y == some .lt

/-- Below or equal; false where a not-a-number takes part. -/
def le (x y : Binary64) : Bool := compare? x y == some .lt || compare? x y == some .eq

/-! ### Arithmetic -/

/-- The number with the other sign. -/
def neg : Binary64 → Binary64
  | .nan => .nan
  | .infinite negative => .infinite !negative
  | .finite v => .finite v.neg

/-- The magnitude. -/
def abs : Binary64 → Binary64
  | .nan => .nan
  | .infinite _ => .infinite false
  | .finite v => .finite v.abs

/-- The sum; an exact zero is negative only if both terms are. -/
def add : Binary64 → Binary64 → Binary64
  | .nan, _ => .nan
  | _, .nan => .nan
  | .infinite x, .infinite y => if x = y then .infinite x else .nan
  | .infinite x, .finite _ => .infinite x
  | .finite _, .infinite y => .infinite y
  | .finite x, .finite y =>
    let e := min x.exponent y.exponent
    let total := x.scaledTo e + y.scaledTo e
    if total = 0 then .finite (.zero (x.negative && y.negative))
    else roundScaled (total < 0) total.natAbs e

/-- The difference. -/
def sub (x y : Binary64) : Binary64 := add x (neg y)

/-- The product. -/
def mul : Binary64 → Binary64 → Binary64
  | .nan, _ => .nan
  | _, .nan => .nan
  | .infinite x, .infinite y => .infinite (x != y)
  | .infinite x, .finite y => if y.isZero then .nan else .infinite (x != y.negative)
  | .finite x, .infinite y => if x.isZero then .nan else .infinite (x.negative != y)
  | .finite x, .finite y =>
    roundScaled (x.negative != y.negative) (x.significand * y.significand) (x.exponent + y.exponent)

/-- The quotient. -/
def div : Binary64 → Binary64 → Binary64
  | .nan, _ => .nan
  | _, .nan => .nan
  | .infinite _, .infinite _ => .nan
  | .infinite x, .finite y => .infinite (x != y.negative)
  | .finite x, .infinite y => .finite (.zero (x.negative != y))
  | .finite x, .finite y =>
    let negative := x.negative != y.negative
    if y.isZero then (if x.isZero then .nan else .infinite negative)
    else
      let e := x.exponent - y.exponent
      if 0 ≤ e then roundRatio negative (x.significand * twoTo e.toNat) y.significand
      else roundRatio negative x.significand (y.significand * twoTo (-e).toNat)

/-- Finds, bit by bit from `2 ^ bits` downward, the greatest root whose square is at most `n`. -/
def rootFrom (n : Nat) : Nat → Nat → Nat
  | 0, root => root
  | bits + 1, root =>
    let candidate := root + twoTo bits
    rootFrom n bits (if candidate * candidate ≤ n then candidate else root)

/-- The natural square root, rounded down. -/
def natRoot (n : Nat) : Nat := rootFrom n (n.log2 / 2 + 1) 0

/-- The square root.  The significand is widened to well over twice 53 bits, so that the natural
root and one bit for a remainder decide the rounding. -/
def sqrt : Binary64 → Binary64
  | .nan => .nan
  | .infinite negative => if negative then .nan else .infinite false
  | .finite x =>
    if x.isZero then .finite x
    else if x.negative then .nan
    else
      let odd := x.exponent.emod 2
      let wide := x.significand * twoTo (120 + odd.toNat)
      let root := natRoot wide
      let sticky := if root * root = wide then 0 else 1
      roundScaled false (2 * root + sticky) ((x.exponent - 120 - odd) / 2 - 1)

/-- The greatest integer that is not above the number; a zero keeps its sign. -/
def floor : Binary64 → Binary64
  | .finite x =>
    if x.isIntegral then .finite x
    else roundRatio x.negative x.floorInt.natAbs 1
  | x => x

/-- The least integer that is not below the number; a zero keeps its sign. -/
def ceil : Binary64 → Binary64
  | .finite x =>
    if x.isIntegral then .finite x
    else roundRatio x.negative x.ceilInt.natAbs 1
  | x => x

/-- The integer part clamped into a range; a not-a-number gives zero. -/
def toIntClamped (lo hi : Int) : Binary64 → Int
  | .nan => 0
  | .infinite negative => if negative then lo else hi
  | .finite x => max lo (min hi x.toInt)

/-- The integer part as a signed 64-bit integer, clamped at both ends. -/
def toInt64 (x : Binary64) : Int := x.toIntClamped (-(twoTo 63 : Int)) (twoTo 63 - 1)

/-- The integer part as a count of 64 bits, clamped at both ends. -/
def toCount (x : Binary64) : Nat := (x.toIntClamped 0 (twoTo 64 - 1)).toNat

end Binary64
end JsonFilter

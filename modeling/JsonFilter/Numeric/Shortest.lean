import JsonFilter.Numeric.Binary64

/-!
# The shortest decimal of a binary64 number

A positive finite number stands for all reals that round to it, an interval whose ends belong to it
exactly when its significand is even.  The shortest decimal is the one with the fewest significant
digits inside that interval.

## The search

For each count of digits from 1 to 17 the value lies between two neighbouring points of the decimal
grid.  The first grid with a neighbour inside the interval wins; of two neighbours inside, the
nearer one, and of two equally near the even one.  All tests are exact, on naturals.
-/

namespace JsonFilter

/-- A decimal number: `digits * 10 ^ exponent`. -/
structure Decimal where
  digits : Nat
  exponent : Int
deriving DecidableEq, Repr

/-- Numbers as ratios over one denominator: a value and the ends of the reals that round to it. -/
structure RoundingInterval where
  lower : Nat
  value : Nat
  upper : Nat
  den : Nat
  closed : Bool
deriving Repr

namespace Finite64

/-- The reals that round to a positive number.  Below a power of two the spacing halves, so the
lower end is nearer there. -/
def roundingInterval (x : Finite64) : RoundingInterval :=
  let m := x.significand
  let narrow := m == twoTo 52 && minExponent < x.exponent
  let scale := twoTo (x.exponent - 2).toNat
  { lower := (4 * m - if narrow then 1 else 2) * scale
    value := 4 * m * scale
    upper := (4 * m + 2) * scale
    den := twoTo (2 - x.exponent).toNat
    closed := m % 2 == 0 }

end Finite64

namespace RoundingInterval

/-- Whether the ratio `num / den` lies in the interval, the ends scaled by `scale`. -/
def holds (i : RoundingInterval) (num scale : Nat) : Bool :=
  if i.closed then i.lower * scale ≤ num && num ≤ i.upper * scale
  else i.lower * scale < num && num < i.upper * scale

/-- The power of ten of the value's first digit. -/
def leadingExponent (i : RoundingInterval) : Int :=
  let guess : Int := ((i.value.log2 : Int) - i.den.log2) * 30103 / 100000
  let reaches (e : Int) : Bool :=
    if 0 ≤ e then i.den * tenTo e.toNat ≤ i.value else i.den ≤ i.value * tenTo (-e).toNat
  if !reaches guess then guess - 1
  else if reaches (guess + 1) then guess + 1
  else guess

/-- The better of the value's two neighbours on the grid of step `10 ^ step`, if one of them lies in
the interval. -/
def neighbour? (i : RoundingInterval) (step : Int) : Option Nat :=
  let grow := tenTo (-step).toNat
  let unit := i.den * tenTo step.toNat
  let below := i.value * grow / unit
  let rest := i.value * grow % unit
  match i.holds (below * unit) grow, i.holds ((below + 1) * unit) grow with
  | false, false => none
  | true, false => some below
  | false, true => some (below + 1)
  | true, true =>
    if 2 * rest < unit then some below
    else if unit < 2 * rest then some (below + 1)
    else if below % 2 = 0 then some below
    else some (below + 1)

/-- Tries grids of falling step; `tries` bounds how many. -/
def shortestFrom (i : RoundingInterval) : Nat → Int → Decimal
  | 0, step => ⟨i.value * tenTo (-step).toNat / (i.den * tenTo step.toNat), step⟩
  | tries + 1, step =>
    match i.neighbour? step with
    | some digits => ⟨digits, step⟩
    | none => i.shortestFrom tries (step - 1)

end RoundingInterval

namespace Decimal

/-- The same number without trailing zeros; `tries` bounds how many are removed. -/
def trimFrom : Nat → Decimal → Decimal
  | 0, d => d
  | tries + 1, d =>
    if d.digits % 10 = 0 then trimFrom tries ⟨d.digits / 10, d.exponent + 1⟩ else d

end Decimal

/-- The shortest decimal of a positive number: the fewest digits that round to it. -/
def Finite64.shortest (x : Finite64) : Decimal :=
  let i := x.roundingInterval
  (i.shortestFrom 17 i.leadingExponent).trimFrom 20

end JsonFilter

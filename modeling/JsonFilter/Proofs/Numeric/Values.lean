import JsonFilter.Numeric.Binary64
import Mathlib.Algebra.Order.Field.Power
import Mathlib.Algebra.Order.Ring.Rat
import Mathlib.Data.Nat.Cast.Order.Ring
import Mathlib.Order.Compare
import Mathlib.Order.WithBot
import Mathlib.Tactic.NormNum
import Mathlib.Tactic.Positivity
import Mathlib.Tactic.Ring

/-!
# The values of binary64 numbers

A finite binary64 number is a rational number in disguise, and the comparison of two of them, which
aligns their significands first, is the order of the rationals.  The infinities lie at the two ends.

* **`Finite64.compare_eq`** — two finite numbers compare as the rationals that they stand for, whatever
  their exponents are; the two zeros stand for the same one.
* **`Binary64.compare?_eq`** — the same with the infinities, for all that is a number.
* `Binary64.isNaN_ofInt` — the nearest binary64 number to an integer is always a number.
-/

namespace JsonFilter
namespace Finite64

/-- The rational number that a finite binary64 number stands for. -/
def value (x : Finite64) : ℚ := x.signedSignificand * (2 : ℚ) ^ x.exponent

/-- Both zeros stand for zero. -/
theorem value_zero (negative : Bool) : (zero negative).value = 0 := by
  cases negative <;> simp [value, signedSignificand, zero]

/-- Counting the significand in smaller units leaves the value as it is. -/
theorem scaledTo_mul {x : Finite64} {e : ℤ} (h : e ≤ x.exponent) :
    (x.scaledTo e : ℚ) * 2 ^ e = x.value := by
  obtain ⟨n, hn⟩ := Int.eq_ofNat_of_zero_le (Int.sub_nonneg_of_le h)
  have hexponent : x.exponent = n + e := by omega
  have htwo : (2 : ℚ) ≠ 0 := by norm_num
  have hunits : ((twoTo n : Nat) : ℚ) = 2 ^ n := by
    show ((2 ^ n : Nat) : ℚ) = 2 ^ n
    push_cast
    rfl
  rw [value, scaledTo, hn, Int.toNat_natCast, hexponent, zpow_add₀ htwo, zpow_natCast, ← mul_assoc,
    ← hunits]
  push_cast
  rfl

/-- **The order of finite numbers** is the order of their values. -/
theorem compare_eq (x y : Finite64) : x.compare y = Ord.compare x.value y.value := by
  have hpositive : (0 : ℚ) < 2 ^ min x.exponent y.exponent := by positivity
  have hmono : StrictMono fun i : ℤ => (i : ℚ) * 2 ^ min x.exponent y.exponent :=
    fun i j hij => mul_lt_mul_of_pos_right (Int.cast_lt.2 hij) hpositive
  have hcompare := hmono.cmp_map_eq (x.scaledTo (min x.exponent y.exponent))
    (y.scaledTo (min x.exponent y.exponent))
  rw [scaledTo_mul (min_le_left _ _), scaledTo_mul (min_le_right _ _), cmp_eq_compare,
    cmp_eq_compare] at hcompare
  exact hcompare.symm

end Finite64

namespace Binary64

/-- Where a binary64 number lies among the rationals and the two infinities.  What is not a number
lies nowhere; it is put at zero. -/
def value : Binary64 → WithBot (WithTop ℚ)
  | .nan => ((0 : ℚ) : WithTop ℚ)
  | .infinite true => ⊥
  | .infinite false => (⊤ : WithTop ℚ)
  | .finite x => (x.value : WithTop ℚ)

theorem bot_lt (q : WithTop ℚ) : (⊥ : WithBot (WithTop ℚ)) < q := WithBot.bot_lt_coe q

theorem lt_top (q : ℚ) : ((q : WithTop ℚ) : WithBot (WithTop ℚ)) < (⊤ : WithTop ℚ) :=
  WithBot.coe_lt_coe.2 (WithTop.coe_lt_top q)

/-- Finite numbers lie among all of them as they lie among one another. -/
theorem value_finite_compare (x y : Finite64) :
    Ord.compare (value (.finite x)) (value (.finite y)) = Ord.compare x.value y.value := by
  have hmono : StrictMono fun q : ℚ => ((q : WithTop ℚ) : WithBot (WithTop ℚ)) :=
    WithBot.coe_strictMono.comp WithTop.coe_strictMono
  have hcompare := hmono.cmp_map_eq x.value y.value
  rw [cmp_eq_compare, cmp_eq_compare] at hcompare
  exact hcompare

/-- **The order of numbers** is the order of their values, the infinities included. -/
theorem compare?_eq {x y : Binary64} (hx : x.isNaN = false) (hy : y.isNaN = false) :
    x.compare? y = some (Ord.compare x.value y.value) := by
  match x, y with
  | .finite x, .finite y => rw [compare?, Finite64.compare_eq, value_finite_compare]
  | .infinite true, .infinite true => exact congrArg some (compare_eq_iff_eq.2 rfl).symm
  | .infinite false, .infinite false => exact congrArg some (compare_eq_iff_eq.2 rfl).symm
  | .infinite true, .infinite false => exact congrArg some (compare_lt_iff_lt.2 (bot_lt _)).symm
  | .infinite false, .infinite true => exact congrArg some (compare_gt_iff_gt.2 (bot_lt _)).symm
  | .infinite true, .finite y => exact congrArg some (compare_lt_iff_lt.2 (bot_lt _)).symm
  | .finite x, .infinite true => exact congrArg some (compare_gt_iff_gt.2 (bot_lt _)).symm
  | .infinite false, .finite y => exact congrArg some (compare_gt_iff_gt.2 (lt_top _)).symm
  | .finite x, .infinite false => exact congrArg some (compare_lt_iff_lt.2 (lt_top _)).symm

theorem isNaN_ite {c : Prop} [Decidable c] {x y : Binary64} (hx : x.isNaN = false)
    (hy : y.isNaN = false) : (if c then x else y).isNaN = false := by
  split
  · exact hx
  · exact hy

/-- Rounding a ratio gives a number, at worst an infinite one. -/
theorem isNaN_roundRatio (negative : Bool) (num den : Nat) :
    (roundRatio negative num den).isNaN = false :=
  isNaN_ite rfl (isNaN_ite rfl rfl)

theorem isNaN_ofInt (i : Int) : (ofInt i).isNaN = false := isNaN_roundRatio _ _ _

end Binary64
end JsonFilter

import JsonFilter.Proofs.Numeric.Integers
import Mathlib.Data.Rat.Floor

/-!
# Binary64 numbers rounded down

The floor of a number is computed on the significand, by a division of naturals that cuts off and a correction
for negative numbers, and the result is a binary64 number again.  A number with something behind the point
has no more than 53 bits in front of it, so nothing is lost.

* **`Finite64.floorInt_eq`** — the corrected division is the floor of the value.
* `Finite64.Representable` — the finite numbers of the format.
* **`Binary64.toInt64_floor`** — rounded down and taken as an integer of 64 bits, a number gives its floor or
  the end of the range that is nearest to it.
-/

namespace JsonFilter

/-- The signed integer of 64 bits that is nearest to an integer. -/
def saturate (i : Int) : Int := max (-2 ^ 63) (min (2 ^ 63 - 1) i)

namespace Finite64

/-- The finite numbers of the format: 53 bits and an exponent within the limits. -/
def Representable (x : Finite64) : Prop :=
  x.significand < significandLimit ∧ minExponent ≤ x.exponent ∧ x.exponent ≤ maxExponent

instance (x : Finite64) : Decidable x.Representable := inferInstanceAs (Decidable (_ ∧ _))

theorem value_of_nonneg_exponent {x : Finite64} (h : 0 ≤ x.exponent) :
    x.value = ((x.signedSignificand * 2 ^ x.exponent.toNat : Int) : ℚ) := by
  obtain ⟨m, hm⟩ := Int.eq_ofNat_of_zero_le h
  rw [value, hm, Int.toNat_natCast, zpow_natCast]
  push_cast
  rfl

theorem value_of_neg_exponent {x : Finite64} (h : x.exponent < 0) :
    x.value = (x.signedSignificand : ℚ) / ((2 ^ (-x.exponent).toNat : Nat) : ℚ) := by
  obtain ⟨m, hm⟩ := Int.eq_ofNat_of_zero_le (Int.neg_nonneg_of_nonpos h.le)
  have hexponent : x.exponent = -m := by omega
  rw [value, hexponent, neg_neg, Int.toNat_natCast, zpow_neg, zpow_natCast, div_eq_mul_inv]
  push_cast
  rfl

/-- **The floor of a finite number** is computed on its significand. -/
theorem floorInt_eq (x : Finite64) : x.floorInt = ⌊x.value⌋ := by
  rcases lt_or_ge x.exponent 0 with hexponent | hexponent
  · have htruncated : x.truncated = x.significand / 2 ^ (-x.exponent).toNat := by
      rw [truncated, if_neg (by omega), twoTo_eq]
    have hintegral : x.isIntegral = true ↔ x.significand % 2 ^ (-x.exponent).toNat = 0 := by
      simp [isIntegral, twoTo_eq, hexponent.not_ge]
    rw [value_of_neg_exponent hexponent, Rat.floor_intCast_div_natCast, floorInt, toInt, htruncated,
      signedSignificand]
    cases hsign : x.negative with
    | false => simp
    | true =>
      have hdvd : ((2 ^ (-x.exponent).toNat : Nat) : Int) ∣ x.significand ↔ x.isIntegral = true := by
        rw [hintegral, Int.natCast_dvd_natCast, Nat.dvd_iff_mod_eq_zero]
      have hunit : (((2 ^ (-x.exponent).toNat : Nat) : Int)).sign = 1 :=
        Int.sign_eq_one_of_pos (by exact_mod_cast Nat.two_pow_pos _)
      rw [if_pos rfl, if_pos rfl, Int.neg_ediv, hunit, Int.natCast_div]
      simp only [hdvd]
      cases x.isIntegral <;> simp
  · have htruncated : x.truncated = x.significand * 2 ^ x.exponent.toNat := by
      rw [truncated, if_pos hexponent, twoTo_eq]
    have hintegral : x.isIntegral = true := by simp [isIntegral, hexponent]
    rw [value_of_nonneg_exponent hexponent, Int.floor_intCast, floorInt, toInt, htruncated,
      hintegral, signedSignificand]
    cases x.negative <;> simp

/-- What has something behind the point has fewer than 53 bits in front of it. -/
theorem floorInt_bounds {x : Finite64} (hx : x.significand < significandLimit) (h : x.isIntegral = false) :
    -2 ^ 53 ≤ x.floorInt ∧ x.floorInt ≤ 2 ^ 53 := by
  have hexponent : x.exponent < 0 := by
    by_contra hnonneg
    simp [isIntegral, not_lt.1 hnonneg] at h
  have htruncated : x.truncated = x.significand / 2 ^ (-x.exponent).toNat := by
    rw [truncated, if_neg (by omega), twoTo_eq]
  have hle : x.truncated ≤ x.significand := htruncated ▸ Nat.div_le_self _ _
  have hlimit : significandLimit = 2 ^ 53 := rfl
  rw [floorInt, toInt]
  split_ifs <;> omega

end Finite64

namespace Binary64

theorem toIntClamped_finite (x : Finite64) : (Binary64.finite x).toInt64 = saturate x.toInt := rfl

/-- The number nearest to an integer of 53 bits, with its sign, stands for it; so does a zero of either
sign. -/
theorem exists_roundRatio {negative : Bool} {i : Int} (hsign : i ≠ 0 → negative = decide (i < 0))
    (hlow : -2 ^ 53 ≤ i) (hhigh : i ≤ 2 ^ 53) :
    ∃ x : Finite64, roundRatio negative i.natAbs 1 = .finite x ∧ x.toInt = i := by
  rcases eq_or_ne i 0 with rfl | hi
  · exact ⟨.zero negative, rfl, Finite64.toInt_of_value (Finite64.value_zero negative)⟩
  · have hbits : i.natAbs.log2 < 1000 := by
      have hlog := (Nat.log2_lt (Int.natAbs_ne_zero.2 hi)).2 (show i.natAbs < 2 ^ 54 by omega)
      omega
    obtain ⟨x, hx, hvalue⟩ := exists_ofInt hbits
    rw [nearest_of_le hlow hhigh] at hvalue
    exact ⟨x, by rw [hsign hi]; exact hx, Finite64.toInt_of_value hvalue⟩

/-- **Rounded down and taken as an integer,** a finite number gives its floor, kept within 64 bits. -/
theorem toInt64_floor {x : Finite64} (hx : x.significand < Finite64.significandLimit) :
    (Binary64.finite x).floor.toInt64 = saturate ⌊x.value⌋ := by
  rw [← Finite64.floorInt_eq]
  cases hintegral : x.isIntegral with
  | true =>
    rw [floor, hintegral, if_pos rfl, toIntClamped_finite, Finite64.floorInt, hintegral]
    simp
  | false =>
    obtain ⟨hlow, hhigh⟩ := Finite64.floorInt_bounds hx hintegral
    have hsign : x.floorInt ≠ 0 → x.negative = decide (x.floorInt < 0) := by
      rw [Finite64.floorInt, Finite64.toInt, hintegral]
      cases x.negative with
      | false => simp
      | true =>
        have hnegative : -(x.truncated : Int) - 1 < 0 := by omega
        simp [hnegative]
    obtain ⟨y, hy, hvalue⟩ := exists_roundRatio hsign hlow hhigh
    rw [floor, hintegral, if_neg (by decide), hy, toIntClamped_finite, hvalue]

end Binary64
end JsonFilter

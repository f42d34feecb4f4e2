import JsonFilter.Duration
import JsonFilter.Proofs.Numeric.Integers
import Mathlib.Tactic.FieldSimp

/-!
# Seconds as nanoseconds

A number of seconds is a rational number, and its nanoseconds are a quotient that is rounded to the nearest
natural number.  The rounding moves the value by half a nanosecond at most, and a tie goes to the even
number, so an even number of nanoseconds is reached from half a nanosecond below it on.

* `Finite64.le_truncated_iff` — what is cut off behind the point is less than one.
* `Duration.ofSeconds_cases` — seconds above zero are too many, or they are rounded.
* **`Duration.ofSeconds_eq_ok`** — which durations they make.
* `Duration.ofSeconds_of_refused` — all other numbers make no time at all or no duration.
-/

namespace JsonFilter

namespace Finite64

variable {x : Finite64}

/-- A number above zero has no sign, and its significand is not zero. -/
theorem pos_of_value (hx : 0 < x.value) : x.negative = false ∧ 0 < x.significand := by
  have hunit : (0 : ℚ) < 2 ^ x.exponent := by positivity
  have hsigned : (0 : ℚ) < x.signedSignificand := pos_of_mul_pos_left hx hunit.le
  rw [Int.cast_pos, signedSignificand] at hsigned
  cases hsign : x.negative with
  | true =>
    rw [hsign, if_pos rfl] at hsigned
    omega
  | false =>
    rw [hsign, if_neg (by decide)] at hsigned
    exact ⟨rfl, by omega⟩

theorem value_pos (hsign : x.negative = false) (hsignificand : 0 < x.significand) : 0 < x.value := by
  have hvalue : x.value = x.significand * 2 ^ x.exponent := by
    rw [value, signedSignificand, hsign]
    rfl
  rw [hvalue]
  positivity

/-- The value of a number without a sign, as a ratio of naturals. -/
theorem value_of_nonneg (hsign : x.negative = false) :
    (0 ≤ x.exponent → x.value = (x.significand * twoTo x.exponent.toNat : Nat)) ∧
      (x.exponent < 0 → x.value = (x.significand : ℚ) / (twoTo (-x.exponent).toNat : Nat)) := by
  have hsigned : x.signedSignificand = x.significand := by
    rw [signedSignificand, hsign]
    rfl
  rw [value, hsigned]
  constructor
  · intro hexponent
    obtain ⟨n, hn⟩ := Int.eq_ofNat_of_zero_le hexponent
    rw [hn, Int.toNat_natCast, zpow_natCast, twoTo_eq]
    push_cast
    rfl
  · intro hexponent
    obtain ⟨n, hn⟩ := Int.eq_ofNat_of_zero_le (Int.neg_nonneg_of_nonpos hexponent.le)
    have hnegated : x.exponent = -(n : Int) := by omega
    rw [hnegated, neg_neg, Int.toNat_natCast, zpow_neg, zpow_natCast, twoTo_eq, div_eq_mul_inv]
    push_cast
    rfl

/-- What is cut off behind the point is less than one. -/
theorem le_truncated_iff (hsign : x.negative = false) (n : Nat) :
    n ≤ x.truncated ↔ (n : ℚ) ≤ x.value := by
  obtain ⟨hwhole, hparts⟩ := value_of_nonneg hsign
  rw [truncated]
  split_ifs with hexponent
  · rw [hwhole hexponent, Nat.cast_le]
  · have hunit : 0 < twoTo (-x.exponent).toNat := Nat.two_pow_pos _
    rw [hparts (by omega), Nat.le_div_iff_mul_le hunit, le_div_iff₀ (by exact_mod_cast hunit)]
    exact_mod_cast Iff.rfl

end Finite64

namespace Duration

/-- What rounding to whole nanoseconds adds or takes away at most, in seconds. -/
def halfNanosecond : ℚ := 1 / (2 * perSecond)

theorem perSecond_pos : (0 : ℚ) < perSecond := by
  have hpos : 0 < perSecond := by decide
  exact_mod_cast hpos

theorem halfNanosecond_mul : halfNanosecond * perSecond = 1 / 2 := by
  have hpos := perSecond_pos
  rw [halfNanosecond]
  field_simp

theorem halfNanosecond_pos : 0 < halfNanosecond := by
  have hpos := perSecond_pos
  rw [halfNanosecond]
  positivity

/-- What becomes of seconds above zero: there are too many of them, or their nanoseconds are a quotient
that is rounded. -/
theorem ofSeconds_cases {x : Finite64} (hx : 0 < x.value) :
    (2 ^ 64 ≤ x.value ∧ ofSeconds (.finite x) = .error .tooLong) ∨
      (x.value < 2 ^ 64 ∧ ∃ num den : Nat, 0 < den ∧ x.value * perSecond = (num : ℚ) / den ∧
        ofSeconds (.finite x) = .ok ⟨roundQuotient num den⟩) := by
  obtain ⟨hsign, hsignificand⟩ := Finite64.pos_of_value hx
  obtain ⟨hwhole, hparts⟩ := Finite64.value_of_nonneg hsign
  have hnonzero : x.isZero = false := by
    rw [Finite64.isZero, beq_eq_false_iff_ne]
    omega
  have hlimit : secondsLimit ≤ x.truncated ↔ (2 : ℚ) ^ 64 ≤ x.value := by
    rw [Finite64.le_truncated_iff hsign]
    exact_mod_cast Iff.rfl
  rw [ofSeconds, hnonzero, hsign, if_neg (by decide), if_neg (by decide)]
  split_ifs with hlong hexponent
  · exact .inl ⟨hlimit.1 hlong, rfl⟩
  · refine .inr ⟨not_le.1 (mt hlimit.2 hlong), x.significand * twoTo x.exponent.toNat * perSecond, 1,
      Nat.one_pos, ?_, by rw [roundQuotient_one]⟩
    rw [hwhole hexponent, Nat.cast_one, div_one]
    push_cast
    rfl
  · refine .inr ⟨not_le.1 (mt hlimit.2 hlong), x.significand * perSecond, twoTo (-x.exponent).toNat,
      Nat.two_pow_pos _, ?_, rfl⟩
    rw [hparts (by omega)]
    push_cast
    ring

/-- So many seconds are too many for a duration. -/
theorem ofSeconds_eq_error {x : Finite64} (hlong : 2 ^ 64 ≤ x.value) :
    ofSeconds (.finite x) = .error .tooLong := by
  have hx : 0 < x.value := lt_of_lt_of_le (by norm_num) hlong
  rcases ofSeconds_cases hx with ⟨-, herror⟩ | ⟨hshort, -⟩
  · exact herror
  · exact absurd hlong hshort.not_ge

/-- Seconds that are not above zero are no time, or less than that. -/
theorem ofSeconds_of_nonpos {x : Finite64} (hx : x.value ≤ 0) :
    ofSeconds (.finite x) = .ok zero ∨ ofSeconds (.finite x) = .error .negative := by
  by_cases hzero : x.isZero = true
  · exact .inl (by rw [ofSeconds, if_pos hzero])
  by_cases hnegative : x.negative = true
  · exact .inr (by rw [ofSeconds, if_neg hzero, if_pos hnegative])
  have hsignificand : x.significand ≠ 0 := fun h => hzero (by rw [Finite64.isZero, h]; rfl)
  have hpos := Finite64.value_pos (Bool.eq_false_of_not_eq_true hnegative) (Nat.pos_of_ne_zero hsignificand)
  exact absurd hx hpos.not_ge

/-- **Seconds above zero** as a duration: the nearest number of nanoseconds.  It is zero up to half a
nanosecond. -/
theorem ofSeconds_eq_ok {x : Finite64} (hx : 0 < x.value) (hshort : x.value < 2 ^ 64) :
    ∃ d, ofSeconds (.finite x) = .ok d ∧ (d = .zero ↔ x.value ≤ halfNanosecond) ∧
      ∀ n, n % 2 = 0 → (n ≤ d.nanoseconds ↔ (n : ℚ) / perSecond ≤ x.value + halfNanosecond) := by
  rcases ofSeconds_cases hx with ⟨hlong, -⟩ | ⟨-, num, den, hden, hratio, hrounded⟩
  · exact absurd hlong hshort.not_ge
  have hpos := perSecond_pos
  have hhalf := halfNanosecond_mul
  have hden' : (0 : ℚ) < den := by exact_mod_cast hden
  refine ⟨_, hrounded, ?_, fun n heven => ?_⟩
  · calc Duration.mk (roundQuotient num den) = .zero ↔ roundQuotient num den = 0 := by
          rw [zero, Duration.mk.injEq]
      _ ↔ 2 * num ≤ den := roundQuotient_eq_zero_iff hden
      _ ↔ (num : ℚ) / den ≤ 1 / 2 := by
          rw [div_le_div_iff₀ hden' (by norm_num), one_mul, mul_comm]
          exact_mod_cast Iff.rfl
      _ ↔ x.value ≤ halfNanosecond := by
          rw [← hratio, ← hhalf, mul_le_mul_iff_left₀ hpos]
  · calc n ≤ roundQuotient num den ↔ 2 * n * den ≤ 2 * num + den := le_roundQuotient_iff heven hden
      _ ↔ (2 : ℚ) * n * den ≤ 2 * num + den := by exact_mod_cast Iff.rfl
      _ ↔ (n : ℚ) ≤ (num : ℚ) / den + 1 / 2 := by
          rw [div_add_div _ _ hden'.ne' two_ne_zero, le_div_iff₀ (by positivity)]
          constructor <;> intro h <;> linarith
      _ ↔ (n : ℚ) / perSecond ≤ x.value + halfNanosecond := by
          rw [← hratio, ← hhalf, ← add_mul, div_le_iff₀ hpos]

/-- Numbers beyond these bounds, and what is not a number, are no time at all or no duration. -/
theorem ofSeconds_of_refused {seconds : Binary64}
    (h : ∀ x, seconds = .finite x → halfNanosecond < x.value → ¬x.value < 2 ^ 64) :
    ofSeconds seconds = .ok zero ∨ ∃ fault, ofSeconds seconds = .error fault := by
  match seconds with
  | .nan => exact .inr ⟨_, rfl⟩
  | .infinite _ => exact .inr ⟨_, rfl⟩
  | .finite x =>
    rcases le_or_gt x.value 0 with hnonpos | hx
    · exact (ofSeconds_of_nonpos hnonpos).imp_right fun herror => ⟨_, herror⟩
    rcases lt_or_ge x.value (2 ^ 64) with hshort | hlong
    · obtain ⟨d, hd, hzero, -⟩ := ofSeconds_eq_ok hx hshort
      have hlow : x.value ≤ halfNanosecond := not_lt.1 fun hlow => h x rfl hlow hshort
      exact .inl (hzero.2 hlow ▸ hd)
    · exact .inr ⟨_, ofSeconds_eq_error hlong⟩

end Duration

end JsonFilter

import JsonFilter.Proofs.Numeric.Values
import Mathlib.Tactic.Linarith

/-!
# Integers among the binary64 numbers

An integer with more than 53 significant bits is rounded to one that ends in zeros.  The integers that
binary64 numbers stand for are every integer up to `2 ^ 53`, from there on the even ones, and then the
multiples of ever higher powers of two.  So adding one to such a number may not lead on.

* `nearestNat`, `nearest` — the integer that binary64 keeps of an integer.
* **`Binary64.exists_ofInt`** — the nearest binary64 number to an integer stands for that.
* **`Binary64.add_one_eq`** — adding one to an integer gives the nearest number to its successor.
* **`nearest_succ`** — up to `2 ^ 53` this is the successor; beyond, it is the same integer again, or the
  one two above it where the last significand was odd.
-/

namespace JsonFilter

/-! ### Rounded quotients -/

theorem roundQuotient_mul_add (q : Nat) {r d : Nat} (hr : r < d) :
    roundQuotient (q * d + r) d =
      if 2 * r < d then q else if d < 2 * r then q + 1 else if q % 2 = 0 then q else q + 1 := by
  have hd : 0 < d := Nat.zero_lt_of_lt hr
  have hdiv : (q * d + r) / d = q := by
    rw [Nat.mul_comm, Nat.mul_add_div hd, Nat.div_eq_of_lt hr, Nat.add_zero]
  have hmod : (q * d + r) % d = r := by rw [Nat.mul_comm, Nat.mul_add_mod, Nat.mod_eq_of_lt hr]
  simp only [roundQuotient, hdiv, hmod]

theorem roundQuotient_mul (q : Nat) {d : Nat} (hd : 0 < d) : roundQuotient (q * d) d = q := by
  have h := roundQuotient_mul_add q hd
  rwa [Nat.add_zero, if_pos (by omega)] at h

theorem roundQuotient_one (n : Nat) : roundQuotient n 1 = n := by
  have h := roundQuotient_mul n Nat.one_pos
  rwa [Nat.mul_one] at h

/-- Units do not matter. -/
theorem roundQuotient_mul_right (n d : Nat) {c : Nat} (hc : 0 < c) :
    roundQuotient (n * c) (d * c) = roundQuotient n d := by
  have hless : 2 * (n % d * c) < d * c ↔ 2 * (n % d) < d := by
    rw [← Nat.mul_assoc, Nat.mul_lt_mul_right hc]
  have hmore : d * c < 2 * (n % d * c) ↔ d < 2 * (n % d) := by
    rw [← Nat.mul_assoc, Nat.mul_lt_mul_right hc]
  simp only [roundQuotient, Nat.mul_div_mul_right _ _ hc, Nat.mul_mod_mul_right, hless, hmore]

theorem div_le_roundQuotient (n d : Nat) : n / d ≤ roundQuotient n d := by
  simp only [roundQuotient]
  split_ifs <;> omega

theorem roundQuotient_le (n d : Nat) : roundQuotient n d ≤ n / d + 1 := by
  simp only [roundQuotient]
  split_ifs <;> omega

theorem roundQuotient_mono {n m d : Nat} (h : n ≤ m) : roundQuotient n d ≤ roundQuotient m d := by
  rcases Nat.lt_or_ge (n / d) (m / d) with hless | hsame
  · exact (roundQuotient_le n d).trans (Nat.succ_le_of_lt hless |>.trans (div_le_roundQuotient m d))
  · have hquotients : n / d = m / d := Nat.le_antisymm (Nat.div_le_div_right h) hsame
    have hn := Nat.div_add_mod n d
    have hm := Nat.div_add_mod m d
    rw [hquotients] at hn
    have hrests : n % d ≤ m % d := by omega
    simp only [roundQuotient, hquotients]
    split_ifs <;> omega

/-- An even number is reached by a rounded quotient as soon as half a unit is missing at most: from there
a tie goes up. -/
theorem le_roundQuotient_iff {n num den : Nat} (heven : n % 2 = 0) (hden : 0 < den) :
    n ≤ roundQuotient num den ↔ 2 * n * den ≤ 2 * num + den := by
  have hnum := Nat.div_add_mod num den
  have hrest := Nat.mod_lt num hden
  have hunit : (2 * (num / den) + 2) * den = 2 * (den * (num / den)) + 2 * den := by ring
  rcases Nat.lt_trichotomy n (num / den + 1) with hless | hsame | hmore
  · have hbelow : 2 * n * den ≤ 2 * (num / den) * den := Nat.mul_le_mul_right den (by omega)
    have hreached := div_le_roundQuotient num den
    have hdistrib : 2 * (num / den) * den = 2 * (den * (num / den)) := by ring
    exact ⟨fun _ => by omega, fun _ => by omega⟩
  · have hodd : (num / den) % 2 = 1 := by omega
    have hnext : 2 * n * den = 2 * (den * (num / den)) + 2 * den := by
      rw [hsame]
      ring
    simp only [roundQuotient]
    split_ifs <;> omega
  · have habove : (2 * (num / den) + 4) * den ≤ 2 * n * den := Nat.mul_le_mul_right den (by omega)
    have hmissed := roundQuotient_le num den
    have hdistrib : (2 * (num / den) + 4) * den = 2 * (den * (num / den)) + 4 * den := by ring
    exact ⟨fun _ => by omega, fun _ => by omega⟩

/-- Up to half a unit is rounded to nothing. -/
theorem roundQuotient_eq_zero_iff {num den : Nat} (hden : 0 < den) :
    roundQuotient num den = 0 ↔ 2 * num ≤ den := by
  have hnum := Nat.div_add_mod num den
  have hrest := Nat.mod_lt num hden
  rcases Nat.eq_zero_or_pos (num / den) with hzero | hpos
  · rw [hzero, Nat.mul_zero, Nat.zero_add] at hnum
    simp only [roundQuotient, hzero]
    split_ifs with hless hmore
    · exact iff_of_true rfl (by omega)
    · exact iff_of_false id (by omega)
    · exact iff_of_true rfl (by omega)
  · have hunit : den ≤ den * (num / den) := Nat.le_mul_of_pos_right den hpos
    have hreached := div_le_roundQuotient num den
    exact ⟨fun hzero => absurd (hzero ▸ hreached) (by omega), fun _ => by omega⟩

/-! ### Integers of 53 bits -/

/-- A natural number rounded to the nearest one with 53 significant bits, a tie going to the even
significand. -/
def nearestNat (n : Nat) : Nat := roundQuotient n (twoTo (n.log2 - 52)) * twoTo (n.log2 - 52)

/-- An integer rounded to 53 significant bits. -/
def nearest (i : Int) : Int := if i < 0 then -(nearestNat i.natAbs : Int) else nearestNat i.natAbs

theorem twoTo_eq (n : Nat) : twoTo n = 2 ^ n := rfl

/-- Between two powers of two the last of the 53 bits has one place. -/
theorem nearestNat_of_bounds {n k : Nat} (hlow : 2 ^ 52 * 2 ^ k ≤ n) (hhigh : n < 2 ^ 53 * 2 ^ k) :
    nearestNat n = roundQuotient n (2 ^ k) * 2 ^ k := by
  have hpos : n ≠ 0 := by
    have := Nat.two_pow_pos k
    omega
  have hlog : n.log2 = 52 + k := by
    rw [Nat.log2_eq_iff hpos, Nat.pow_add, Nat.add_right_comm, Nat.pow_add]
    exact ⟨hlow, hhigh⟩
  rw [nearestNat, hlog, Nat.add_sub_cancel_left, twoTo_eq]

theorem exists_bounds {n : Nat} (h : 2 ^ 52 ≤ n) :
    ∃ k, 2 ^ 52 * 2 ^ k ≤ n ∧ n < 2 ^ 53 * 2 ^ k := by
  have hlog : 52 ≤ n.log2 := (Nat.le_log2 (by omega)).2 h
  obtain ⟨k, hk⟩ := Nat.exists_eq_add_of_le hlog
  refine ⟨k, ?_, ?_⟩
  · rw [← Nat.pow_add, ← hk]
    exact Nat.log2_self_le (by omega)
  · rw [← Nat.pow_add, Nat.add_right_comm 52 1 k, ← hk]
    exact Nat.lt_log2_self

theorem nearestNat_of_lt {n : Nat} (h : n < 2 ^ 53) : nearestNat n = n := by
  have hlog : n.log2 - 52 = 0 := by
    rcases Nat.eq_zero_or_pos n with rfl | hpos
    · rfl
    · have := (Nat.log2_lt (by omega)).2 h
      omega
  rw [nearestNat, hlog]
  exact (Nat.mul_one _).trans (roundQuotient_one n)

/-- From `2 ^ 53` on, what is kept is a multiple of a power of two that is at least two. -/
theorem nearestNat_grid {n : Nat} (h : 2 ^ 53 ≤ n) :
    ∃ q k, 2 ^ 52 ≤ q ∧ q < 2 ^ 53 ∧ nearestNat n = q * 2 ^ (k + 1) := by
  obtain ⟨k, hlow, hhigh⟩ := exists_bounds (n := n) (by omega)
  obtain ⟨k, rfl⟩ : ∃ j, k = j + 1 := Nat.exists_eq_add_one_of_ne_zero fun hk => by
    rw [hk] at hhigh
    omega
  have hunit : 0 < 2 ^ (k + 1) := Nat.two_pow_pos _
  have hleast : 2 ^ 52 ≤ n / 2 ^ (k + 1) := (Nat.le_div_iff_mul_le hunit).2 hlow
  have hmost : n / 2 ^ (k + 1) < 2 ^ 53 := (Nat.div_lt_iff_lt_mul hunit).2 hhigh
  have hquotient := div_le_roundQuotient n (2 ^ (k + 1))
  have hquotient' := roundQuotient_le n (2 ^ (k + 1))
  rw [nearestNat_of_bounds hlow hhigh]
  -- A significand that is rounded up to `2 ^ 53` is halved, and its last place is the next one.
  by_cases hcarry : roundQuotient n (2 ^ (k + 1)) = 2 ^ 53
  · refine ⟨2 ^ 52, k + 1, le_rfl, by decide, ?_⟩
    rw [hcarry, Nat.pow_succ 2 (k + 1)]
    ring
  · exact ⟨_, k, hleast.trans hquotient, by omega, rfl⟩

section

variable {q k : Nat} (hq : 2 ^ 52 ≤ q) (hq' : q < 2 ^ 53)
include hq hq'

theorem nearestNat_mul_twoPow : nearestNat (q * 2 ^ k) = q * 2 ^ k := by
  have hunit : 0 < 2 ^ k := Nat.two_pow_pos _
  rw [nearestNat_of_bounds (Nat.mul_le_mul_right _ hq) ((Nat.mul_lt_mul_right hunit).2 hq'),
    roundQuotient_mul q hunit]

/-- One above a multiple of two is a tie, and one above a multiple of four is close to it. -/
theorem nearestNat_add_one : nearestNat (q * 2 ^ (k + 1) + 1) =
    if q * 2 ^ (k + 1) % 4 = 2 then q * 2 ^ (k + 1) + 2 else q * 2 ^ (k + 1) := by
  have hunit : 1 < 2 ^ (k + 1) := Nat.one_lt_two_pow (by omega)
  have hlow : 2 ^ 52 * 2 ^ (k + 1) ≤ q * 2 ^ (k + 1) + 1 :=
    (Nat.mul_le_mul_right _ hq).trans (Nat.le_succ _)
  have hhigh : q * 2 ^ (k + 1) + 1 < 2 ^ 53 * 2 ^ (k + 1) := by
    have hnext := Nat.mul_le_mul_right (2 ^ (k + 1)) (Nat.succ_le_of_lt hq')
    rw [Nat.succ_mul] at hnext
    omega
  rw [nearestNat_of_bounds hlow hhigh, roundQuotient_mul_add q hunit]
  cases k with
  | zero =>
    simp only [Nat.zero_add, Nat.pow_one]
    split_ifs <;> omega
  | succ k =>
    have hfour : 2 ^ (k + 1 + 1) = 4 * 2 ^ k := by ring
    have hrest : q * 2 ^ (k + 1 + 1) % 4 = 0 := by
      rw [hfour, Nat.mul_left_comm, Nat.mul_mod_right]
    have hpos := Nat.two_pow_pos k
    rw [if_pos (by omega), if_neg (by omega)]

/-- One below the next multiple is close to that, except below a multiple of two. -/
theorem nearestNat_below_next : nearestNat (q * 2 ^ (k + 1) + (2 ^ (k + 1) - 1)) =
    (if k = 0 ∧ q % 2 = 0 then q else q + 1) * 2 ^ (k + 1) := by
  have hunit : 1 < 2 ^ (k + 1) := Nat.one_lt_two_pow (by omega)
  have hlow : 2 ^ 52 * 2 ^ (k + 1) ≤ q * 2 ^ (k + 1) + (2 ^ (k + 1) - 1) :=
    (Nat.mul_le_mul_right _ hq).trans (Nat.le_add_right _ _)
  have hhigh : q * 2 ^ (k + 1) + (2 ^ (k + 1) - 1) < 2 ^ 53 * 2 ^ (k + 1) := by
    have hnext := Nat.mul_le_mul_right (2 ^ (k + 1)) (Nat.succ_le_of_lt hq')
    rw [Nat.succ_mul] at hnext
    omega
  rw [nearestNat_of_bounds hlow hhigh, roundQuotient_mul_add q (by omega : 2 ^ (k + 1) - 1 < 2 ^ (k + 1))]
  cases k with
  | zero => simp
  | succ k =>
    have hfour : 2 ^ (k + 1 + 1) = 4 * 2 ^ k := by ring
    have hpos := Nat.two_pow_pos k
    rw [if_neg (by omega), if_pos (by omega), if_neg (by omega)]

end

/-- One below a multiple of two is a tie, too, and one below a multiple of four is close to it, even
where the last place below it is that of smaller numbers. -/
theorem nearestNat_sub_one {q k : Nat} (hq : 2 ^ 52 ≤ q) (hq' : q < 2 ^ 53)
    (hlarge : 2 ^ 53 < q * 2 ^ (k + 1)) : nearestNat (q * 2 ^ (k + 1) - 1) =
      if q * 2 ^ (k + 1) % 4 = 2 then q * 2 ^ (k + 1) - 2 else q * 2 ^ (k + 1) := by
  have hmultiple (j : Nat) : q * 2 ^ (j + 1 + 1) % 4 = 0 := by
    have hfour : 2 ^ (j + 1 + 1) = 4 * 2 ^ j := by ring
    rw [hfour, Nat.mul_left_comm, Nat.mul_mod_right]
  rcases Nat.lt_or_ge (2 ^ 52) q with hinside | hleast
  · obtain ⟨p, rfl⟩ := Nat.exists_eq_add_one_of_ne_zero (Nat.ne_zero_of_lt hinside)
    have hbelow := nearestNat_below_next (k := k) (Nat.le_of_lt_succ hinside) (Nat.lt_of_succ_lt hq')
    have hpred : (p + 1) * 2 ^ (k + 1) - 1 = p * 2 ^ (k + 1) + (2 ^ (k + 1) - 1) := by
      have hpos := Nat.two_pow_pos (k + 1)
      rw [Nat.succ_mul]
      omega
    rw [hpred, hbelow]
    cases k with
    | zero =>
      simp only [Nat.zero_add, Nat.pow_one, true_and]
      split_ifs <;> omega
    | succ k => rw [if_neg (by omega), if_neg (by rw [hmultiple]; decide)]
  · -- The least number with its last place: below it the places are half as high.
    obtain rfl : q = 2 ^ 52 := Nat.le_antisymm hleast hq
    obtain ⟨j, rfl⟩ := Nat.exists_eq_add_one_of_ne_zero fun hk : k = 0 => by
      rw [hk] at hlarge
      omega
    have hbelow := nearestNat_below_next (q := 2 ^ 53 - 1) (k := j) (by decide) (by decide)
    have hpred : 2 ^ 52 * 2 ^ (j + 1 + 1) - 1 =
        (2 ^ 53 - 1) * 2 ^ (j + 1) + (2 ^ (j + 1) - 1) := by
      have hpos := Nat.two_pow_pos (j + 1)
      rw [Nat.pow_succ 2 (j + 1)]
      omega
    rw [hpred, hbelow, if_neg (by omega), if_neg (by rw [hmultiple]; decide)]
    rw [Nat.pow_succ 2 (j + 1)]
    omega

theorem nearestNat_of_le {n : Nat} (h : n ≤ 2 ^ 53) : nearestNat n = n := by
  rcases Nat.lt_or_ge n (2 ^ 53) with hless | hmore
  · exact nearestNat_of_lt hless
  · obtain rfl : n = 2 ^ 52 * 2 ^ 1 := Nat.le_antisymm h hmore
    exact nearestNat_mul_twoPow le_rfl (by decide)

theorem nearestNat_idem (n : Nat) : nearestNat (nearestNat n) = nearestNat n := by
  rcases Nat.lt_or_ge n (2 ^ 53) with hless | hmore
  · rw [nearestNat_of_lt hless, nearestNat_of_lt hless]
  · obtain ⟨q, k, hq, hq', hgrid⟩ := nearestNat_grid hmore
    rw [hgrid, nearestNat_mul_twoPow hq hq']

/-- What is kept of a number stays between the powers of two around it. -/
theorem nearestNat_between {n k : Nat} (hlow : 2 ^ 52 * 2 ^ k ≤ n) (hhigh : n < 2 ^ 53 * 2 ^ k) :
    2 ^ 52 * 2 ^ k ≤ nearestNat n ∧ nearestNat n ≤ 2 ^ 53 * 2 ^ k := by
  have hunit : 0 < 2 ^ k := Nat.two_pow_pos k
  have hleast : 2 ^ 52 ≤ n / 2 ^ k := (Nat.le_div_iff_mul_le hunit).2 hlow
  have hmost : n / 2 ^ k < 2 ^ 53 := (Nat.div_lt_iff_lt_mul hunit).2 hhigh
  rw [nearestNat_of_bounds hlow hhigh]
  exact ⟨Nat.mul_le_mul_right _ (hleast.trans (div_le_roundQuotient _ _)),
    Nat.mul_le_mul_right _ ((roundQuotient_le _ _).trans hmost)⟩

theorem nearestNat_mono {n m : Nat} (h : n ≤ m) : nearestNat n ≤ nearestNat m := by
  rcases Nat.lt_or_ge n (2 ^ 52) with hsmall | hlarge
  · rw [nearestNat_of_lt (hsmall.trans (by decide))]
    rcases Nat.lt_or_ge m (2 ^ 53) with hm | hm
    · rwa [nearestNat_of_lt hm]
    · obtain ⟨k, hlow, hhigh⟩ := exists_bounds (n := m) (by omega)
      have hpos := Nat.two_pow_pos k
      have hleast := (nearestNat_between hlow hhigh).1
      omega
  · obtain ⟨k, hlow, hhigh⟩ := exists_bounds hlarge
    obtain ⟨l, hlow', hhigh'⟩ := exists_bounds (hlarge.trans h)
    rcases Nat.lt_trichotomy k l with hless | rfl | hmore
    · have hpowers : 2 ^ (k + 1) ≤ 2 ^ l := Nat.pow_le_pow_right (by decide) hless
      have hmost := (nearestNat_between hlow hhigh).2
      have hleast := (nearestNat_between hlow' hhigh').1
      rw [Nat.pow_succ] at hpowers
      omega
    · rw [nearestNat_of_bounds hlow hhigh, nearestNat_of_bounds hlow' hhigh']
      exact Nat.mul_le_mul_right _ (roundQuotient_mono h)
    · have hpowers : 2 ^ (l + 1) ≤ 2 ^ k := Nat.pow_le_pow_right (by decide) hmore
      rw [Nat.pow_succ] at hpowers
      omega

/-! ### Both signs -/

theorem nearest_natCast (n : Nat) : nearest n = nearestNat n := by
  rw [nearest, if_neg (by omega), Int.natAbs_natCast]

theorem nearest_neg (n : Nat) : nearest (-n) = -(nearestNat n : Int) := by
  rcases Nat.eq_zero_or_pos n with rfl | hpos
  · rfl
  · rw [nearest, if_pos (by omega), Int.natAbs_neg, Int.natAbs_natCast]

theorem nearest_idem (i : Int) : nearest (nearest i) = nearest i := by
  obtain ⟨n, rfl | rfl⟩ := i.eq_nat_or_neg
  · rw [nearest_natCast, nearest_natCast, nearestNat_idem]
  · rw [nearest_neg, nearest_neg, nearestNat_idem]

theorem nearest_mono {i j : Int} (h : i ≤ j) : nearest i ≤ nearest j := by
  obtain ⟨n, rfl | rfl⟩ := i.eq_nat_or_neg
  · obtain ⟨m, rfl⟩ := Int.eq_ofNat_of_zero_le ((Int.natCast_nonneg n).trans h)
    rw [nearest_natCast, nearest_natCast]
    exact_mod_cast nearestNat_mono (by exact_mod_cast h)
  · obtain ⟨m, rfl | rfl⟩ := j.eq_nat_or_neg
    · rw [nearest_natCast, nearest_neg]
      omega
    · rw [nearest_neg, nearest_neg]
      have hreversed := nearestNat_mono (n := m) (m := n) (by omega)
      omega

/-- Integers of 53 bits are kept. -/
theorem nearest_of_le {i : Int} (hlow : -2 ^ 53 ≤ i) (hhigh : i ≤ 2 ^ 53) : nearest i = i := by
  obtain ⟨n, rfl | rfl⟩ := i.eq_nat_or_neg
  · rw [nearest_natCast, nearestNat_of_le (by omega)]
  · rw [nearest_neg, nearestNat_of_le (by omega)]

/-- From `2 ^ 53` on only even integers are kept. -/
theorem even_of_nearest {a : Int} (ha : nearest a = a) (hlarge : a ≤ -2 ^ 53 ∨ 2 ^ 53 ≤ a) :
    a % 2 = 0 := by
  have heven {n : Nat} (h : 2 ^ 53 ≤ n) : nearestNat n % 2 = 0 := by
    obtain ⟨q, k, -, -, hgrid⟩ := nearestNat_grid h
    rw [hgrid, Nat.pow_succ, ← Nat.mul_assoc, Nat.mul_mod_left]
  obtain ⟨n, rfl | rfl⟩ := a.eq_nat_or_neg
  · rw [nearest_natCast] at ha
    have := heven (n := n) (by omega)
    omega
  · rw [nearest_neg] at ha
    have := heven (n := n) (by omega)
    omega

/-- **The successor of an integer that is kept:** it is kept up to `2 ^ 53`.  From there on it is a tie that
goes up if the last significand is odd, or too close to the integer itself. -/
theorem nearest_succ {a : Int} (ha : nearest a = a) : nearest (a + 1) =
    if -2 ^ 53 ≤ a ∧ a < 2 ^ 53 then a + 1 else if a % 4 = 2 then a + 2 else a := by
  split
  · next hsmall => exact nearest_of_le (by omega) (by omega)
  · next hlarge =>
    obtain ⟨n, rfl | rfl⟩ := a.eq_nat_or_neg
    · have hn : 2 ^ 53 ≤ n := by omega
      rw [nearest_natCast] at ha
      obtain ⟨q, k, hq, hq', hgrid⟩ := nearestNat_grid hn
      have hkept : n = q * 2 ^ (k + 1) := by omega
      have hnext := nearestNat_add_one (k := k) hq hq'
      rw [← hkept] at hnext
      have hcast : nearest ((n : Int) + 1) = nearestNat (n + 1) := nearest_natCast (n + 1)
      rw [hcast, hnext]
      split_ifs <;> omega
    · have hn : 2 ^ 53 < n := by omega
      rw [nearest_neg] at ha
      obtain ⟨q, k, hq, hq', hgrid⟩ := nearestNat_grid hn.le
      have hkept : n = q * 2 ^ (k + 1) := by omega
      have hnext := nearestNat_sub_one (k := k) hq hq' (hkept ▸ hn)
      rw [← hkept] at hnext
      have hcast : nearest (-(n : Int) + 1) = -(nearestNat (n - 1) : Int) := by
        rw [← nearest_neg]
        congr 1
        omega
      rw [hcast, hnext]
      split_ifs <;> omega

/-! ### Numbers that stand for integers -/

namespace Finite64

theorem natAbs_signedSignificand (x : Finite64) : x.signedSignificand.natAbs = x.significand := by
  rw [signedSignificand]
  split
  · rw [Int.natAbs_neg, Int.natAbs_natCast]
  · rw [Int.natAbs_natCast]

/-- What an integer looks like as a significand. -/
theorem signedSignificand_of_value {x : Finite64} {a : Int} (hx : x.value = a) :
    (0 ≤ x.exponent → x.signedSignificand * (2 ^ x.exponent.toNat : Nat) = a) ∧
      (x.exponent < 0 → x.signedSignificand = a * (2 ^ (-x.exponent).toNat : Nat)) := by
  have htwo : (2 : ℚ) ≠ 0 := by norm_num
  rw [value] at hx
  constructor
  · intro hexponent
    obtain ⟨m, hm⟩ := Int.eq_ofNat_of_zero_le hexponent
    rw [hm, Int.toNat_natCast]
    rw [hm, zpow_natCast] at hx
    exact_mod_cast hx
  · intro hexponent
    obtain ⟨m, hm⟩ := Int.eq_ofNat_of_zero_le (Int.neg_nonneg_of_nonpos hexponent.le)
    rw [hm, Int.toNat_natCast]
    have hinverse : (2 : ℚ) ^ x.exponent * 2 ^ m = 1 := by
      rw [← zpow_natCast, ← zpow_add₀ htwo, ← hm, add_neg_cancel, zpow_zero]
    have hscaled : (x.signedSignificand : ℚ) = a * 2 ^ m := by
      rw [← hx, mul_assoc, hinverse, mul_one]
    exact_mod_cast hscaled

/-- A number that stands for an integer has nothing behind the point. -/
theorem isIntegral_of_value {x : Finite64} {a : Int} (hx : x.value = a) :
    x.isIntegral = true ∧ x.truncated = a.natAbs := by
  obtain ⟨hwhole, hsmall⟩ := signedSignificand_of_value hx
  have habs := natAbs_signedSignificand x
  rcases lt_or_ge x.exponent 0 with hexponent | hexponent
  · have hunits := hsmall hexponent
    have hpos := Nat.two_pow_pos (-x.exponent).toNat
    rw [hunits, Int.natAbs_mul, Int.natAbs_natCast] at habs
    rw [isIntegral, truncated, if_neg (by omega), ← habs, twoTo_eq, Nat.mul_mod_left,
      Nat.mul_div_cancel _ hpos]
    simp
  · have hunits := congrArg Int.natAbs (hwhole hexponent)
    rw [Int.natAbs_mul, Int.natAbs_natCast, habs] at hunits
    rw [isIntegral, truncated, if_pos hexponent, twoTo_eq, twoTo_eq, hunits]
    simp [hexponent]

/-- The sign of a number is that of the integer, where it is not zero. -/
theorem sign_of_value {x : Finite64} {a : Int} (hx : x.value = a) :
    (x.negative = true → a ≤ 0) ∧ (x.negative = false → 0 ≤ a) := by
  have hpositive : (0 : ℚ) < 2 ^ x.exponent := by positivity
  constructor
  · intro hsign
    have hvalue : (a : ℚ) = -(x.significand * 2 ^ x.exponent) := by
      rw [← hx, value, signedSignificand, hsign, if_pos rfl]
      push_cast
      ring
    have hnonpos : (a : ℚ) ≤ 0 := by
      rw [hvalue]
      exact neg_nonpos.2 (by positivity)
    exact_mod_cast hnonpos
  · intro hsign
    have hvalue : (a : ℚ) = x.significand * 2 ^ x.exponent := by
      rw [← hx, value, signedSignificand, hsign]
      rfl
    have hnonneg : (0 : ℚ) ≤ a := by
      rw [hvalue]
      positivity
    exact_mod_cast hnonneg

theorem toInt_of_value {x : Finite64} {a : Int} (hx : x.value = a) : x.toInt = a := by
  obtain ⟨hnegative, hpositive⟩ := sign_of_value hx
  rw [toInt, (isIntegral_of_value hx).2]
  cases hsign : x.negative with
  | true =>
    have := hnegative hsign
    rw [if_pos rfl]
    omega
  | false =>
    have := hpositive hsign
    rw [if_neg (by decide)]
    omega

end Finite64

namespace Binary64

/-- Finite numbers compare as their values. -/
theorem le_finite_iff (x y : Finite64) : le (.finite x) (.finite y) = true ↔ x.value ≤ y.value := by
  rw [le, compare?, Finite64.compare_eq]
  rcases lt_trichotomy x.value y.value with h | h | h
  · simp [compare_lt_iff_lt.2 h, h.le]
  · simp [h]
  · simp [compare_gt_iff_gt.2 h, h.not_ge]

/-! ### Rounding of integers -/

theorem log2_mul_twoPow {n : Nat} (hn : n ≠ 0) (k : Nat) : (n * 2 ^ k).log2 = n.log2 + k := by
  have hpos := Nat.two_pow_pos k
  rw [Nat.log2_eq_iff (by positivity), Nat.pow_add, Nat.add_right_comm, Nat.pow_add]
  exact ⟨Nat.mul_le_mul_right _ (Nat.log2_self_le hn), (Nat.mul_lt_mul_right hpos).2 Nat.lt_log2_self⟩

/-- The first of the 53 bits is that of the number, whatever the units are. -/
theorem ratioExponent_mul_twoTo {n : Nat} (hn : n ≠ 0) (k : Nat) :
    ratioExponent (n * twoTo k) (twoTo k) = (n.log2 : Int) - 52 := by
  have hlow := Nat.log2_self_le hn
  simp only [ratioExponent, twoTo_eq, log2_mul_twoPow hn, Nat.log2_two_pow]
  have hguess : ((n.log2 + k : Nat) : Int) - k - 52 = n.log2 - 52 := by omega
  rw [hguess]
  have hlong : (if 0 ≤ (n.log2 : Int) - 52 then
        decide (n * 2 ^ k < 2 ^ k * 2 ^ (52 + ((n.log2 : Int) - 52).toNat))
      else decide (n * 2 ^ k * 2 ^ (-((n.log2 : Int) - 52)).toNat < 2 ^ k * 2 ^ 52)) = false := by
    split
    · have hbits : 52 + ((n.log2 : Int) - 52).toNat = n.log2 := by omega
      rw [hbits, decide_eq_false_iff_not, Nat.mul_comm n, Nat.not_lt]
      exact Nat.mul_le_mul_left _ hlow
    · have hbits : n.log2 + (-((n.log2 : Int) - 52)).toNat = 52 := by omega
      rw [decide_eq_false_iff_not, Nat.mul_comm n, Nat.mul_assoc, Nat.not_lt]
      refine Nat.mul_le_mul_left _ ?_
      calc 2 ^ 52 = 2 ^ n.log2 * 2 ^ (-((n.log2 : Int) - 52)).toNat := by rw [← Nat.pow_add, hbits]
        _ ≤ n * 2 ^ (-((n.log2 : Int) - 52)).toNat := Nat.mul_le_mul_right _ hlow
  rw [hlong]
  exact max_eq_left (by simp only [Finite64.minExponent]; omega)

theorem ratioExponent_one {n : Nat} (hn : n ≠ 0) : ratioExponent n 1 = (n.log2 : Int) - 52 := by
  have h := ratioExponent_mul_twoTo hn 0
  rwa [show twoTo 0 = 1 from rfl, Nat.mul_one] at h

theorem roundAt_mul_right (negative : Bool) (num den : Nat) {c : Nat} (hc : 0 < c) (e : Int) :
    roundAt negative (num * c) (den * c) e = roundAt negative num den e := by
  have hwhole : roundQuotient (num * c) (den * c * twoTo e.toNat) =
      roundQuotient num (den * twoTo e.toNat) := by
    rw [Nat.mul_right_comm, roundQuotient_mul_right _ _ hc]
  have hsmall : roundQuotient (num * c * twoTo (-e).toNat) (den * c) =
      roundQuotient (num * twoTo (-e).toNat) den := by
    rw [Nat.mul_right_comm, roundQuotient_mul_right _ _ hc]
  simp only [roundAt, hwhole, hsmall]

/-- Units do not matter. -/
theorem roundRatio_mul_twoTo (negative : Bool) (n k : Nat) :
    roundRatio negative (n * twoTo k) (twoTo k) = roundRatio negative n 1 := by
  rcases Nat.eq_zero_or_pos n with rfl | hpos
  · rw [Nat.zero_mul]
    rfl
  · have hn : n ≠ 0 := by omega
    have hscaled : n * twoTo k ≠ 0 := Nat.mul_ne_zero hn (twoTo_pos k).ne'
    have hround := roundAt_mul_right negative n 1 (twoTo_pos k) ((n.log2 : Int) - 52)
    rw [Nat.one_mul] at hround
    rw [roundRatio, roundRatio, if_neg hn, if_neg hscaled, ratioExponent_mul_twoTo hn,
      ratioExponent_one hn, hround]

/-- A rounded significand may be carried over; the value stays. -/
theorem exists_roundAt (negative : Bool) (num den : Nat) {e : Int} (he : e < Finite64.maxExponent) :
    ∃ x : Finite64, roundAt negative num den e = .finite x ∧ x.negative = negative ∧
      (x.significand : ℚ) * 2 ^ x.exponent =
        (if 0 ≤ e then roundQuotient num (den * twoTo e.toNat)
          else roundQuotient (num * twoTo (-e).toNat) den : Nat) * 2 ^ e := by
  simp only [roundAt]
  generalize (if 0 ≤ e then roundQuotient num (den * twoTo e.toNat)
    else roundQuotient (num * twoTo (-e).toNat) den) = s
  by_cases hcarry : s = Finite64.significandLimit
  · refine ⟨⟨negative, s / 2, e + 1⟩, ?_, rfl, ?_⟩
    · simp only [hcarry, beq_self_eq_true, if_true]
      rw [if_neg (by omega)]
    · have hhalf : s = s / 2 * 2 := by
        rw [hcarry]
        rfl
      rw [zpow_add_one₀ (by norm_num)]
      nth_rewrite 2 [hhalf]
      push_cast
      ring
  · refine ⟨⟨negative, s, e⟩, ?_, rfl, rfl⟩
    simp only [beq_eq_false_iff_ne.2 hcarry, Bool.false_eq_true, if_false]
    rw [if_neg (by omega)]

/-- What is kept of a natural number, as significand and power of two. -/
theorem nearestNat_eq {n : Nat} (hn : n ≠ 0) :
    ((if 0 ≤ (n.log2 : Int) - 52 then roundQuotient n (1 * twoTo ((n.log2 : Int) - 52).toNat)
      else roundQuotient (n * twoTo (-((n.log2 : Int) - 52)).toNat) 1 : Nat) : ℚ) *
        2 ^ ((n.log2 : Int) - 52) = nearestNat n := by
  split
  · next hlong =>
    obtain ⟨m, hm⟩ := Int.eq_ofNat_of_zero_le hlong
    have hplace : n.log2 - 52 = m := by omega
    rw [hm, Int.toNat_natCast, zpow_natCast, Nat.one_mul, nearestNat, hplace, twoTo_eq]
    push_cast
    rfl
  · next hshort =>
    obtain ⟨m, hm⟩ : ∃ m : Nat, (n.log2 : Int) - 52 = -m := ⟨52 - n.log2, by omega⟩
    have hsmall : n < 2 ^ 53 := (Nat.log2_lt hn).1 (by omega)
    rw [hm, neg_neg, Int.toNat_natCast, roundQuotient_one, nearestNat_of_lt hsmall, zpow_neg,
      zpow_natCast, twoTo_eq]
    push_cast
    exact mul_inv_cancel_right₀ (by positivity) _

/-- **The nearest number to an integer** stands for that integer, rounded to 53 bits. -/
theorem exists_ofInt {i : Int} (hi : i.natAbs.log2 < 1000) :
    ∃ x, ofInt i = .finite x ∧ x.value = nearest i := by
  rcases eq_or_ne i 0 with rfl | hi0
  · exact ⟨.zero false, rfl, by rw [Finite64.value_zero]; rfl⟩
  · have hn : i.natAbs ≠ 0 := Int.natAbs_ne_zero.2 hi0
    obtain ⟨x, hround, hsign, hvalue⟩ := exists_roundAt (i < 0) i.natAbs 1
      (show (i.natAbs.log2 : Int) - 52 < Finite64.maxExponent by simp only [Finite64.maxExponent]; omega)
    rw [nearestNat_eq hn] at hvalue
    refine ⟨x, ?_, ?_⟩
    · rw [ofInt, roundRatio, if_neg hn, ratioExponent_one hn, hround]
    · rw [Finite64.value, Finite64.signedSignificand, hsign, nearest]
      by_cases hnegative : i < 0
      · rw [if_pos (by simpa using hnegative), if_pos hnegative]
        push_cast
        rw [neg_mul, hvalue]
      · rw [if_neg (by simpa using hnegative), if_neg hnegative]
        push_cast
        exact hvalue

/-- One in the units of a sum. -/
theorem scaledTo_add_one {x : Finite64} {a : Int} (hx : x.value = a) {e : Int} (he : e ≤ x.exponent)
    (he' : e ≤ -52) :
    x.scaledTo e + Finite64.scaledTo ⟨false, twoTo 52, -52⟩ e = (a + 1) * (twoTo (-e).toNat : Nat) := by
  have htwo : (2 : ℚ) ≠ 0 := by norm_num
  have hone : Finite64.value ⟨false, twoTo 52, -52⟩ = 1 := by
    simp [Finite64.value, Finite64.signedSignificand, twoTo_eq]
    norm_num
  obtain ⟨m, hm⟩ := Int.eq_ofNat_of_zero_le (show 0 ≤ -e by omega)
  have hinverse : (2 : ℚ) ^ e * 2 ^ m = 1 := by
    rw [← zpow_natCast, ← zpow_add₀ htwo, ← hm, add_neg_cancel, zpow_zero]
  have hunits (y : Finite64) (hy : e ≤ y.exponent) : (y.scaledTo e : ℚ) = y.value * 2 ^ m := by
    rw [← Finite64.scaledTo_mul hy, mul_assoc, hinverse, mul_one]
  have hsum : ((x.scaledTo e + Finite64.scaledTo ⟨false, twoTo 52, -52⟩ e : Int) : ℚ) =
      (a + 1) * 2 ^ m := by
    push_cast
    rw [hunits x he, hunits _ he', hx, hone]
    ring
  rw [hm, Int.toNat_natCast, twoTo_eq]
  exact_mod_cast hsum

/-- **Adding one to an integer** gives the nearest number to its successor. -/
theorem add_one_eq {x : Finite64} {a : Int} (hx : x.value = a) : (finite x).add one = ofInt (a + 1) := by
  have hone : one = .finite ⟨false, twoTo 52, -52⟩ := by decide +kernel
  have hunits := scaledTo_add_one hx (min_le_left x.exponent (-52)) (min_le_right x.exponent (-52))
  have hsmall : ¬ 0 ≤ min x.exponent (-52) := by omega
  have hpos := twoTo_pos (-min x.exponent (-52)).toNat
  rw [hone, add]
  dsimp only
  rw [hunits]
  by_cases hzero : a + 1 = 0
  · rw [hzero, Int.zero_mul, if_pos rfl, Bool.and_false]
    rfl
  · have hsign : ((a + 1) * (twoTo (-min x.exponent (-52)).toNat : Nat) < 0) ↔ a + 1 < 0 := by
      constructor
      · intro h
        by_contra hnonneg
        exact absurd h (not_lt.2 (mul_nonneg (not_lt.1 hnonneg) (Int.natCast_nonneg _)))
      · exact fun h => mul_neg_of_neg_of_pos h (by exact_mod_cast hpos)
    have htotal : (a + 1) * (twoTo (-min x.exponent (-52)).toNat : Nat) ≠ 0 :=
      mul_ne_zero hzero (by exact_mod_cast hpos.ne')
    rw [if_neg htotal, roundScaled, if_neg hsmall, Int.natAbs_mul, Int.natAbs_natCast,
      roundRatio_mul_twoTo, ofInt]
    simp only [hsign]

end Binary64

end JsonFilter

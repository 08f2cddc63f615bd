import Mathlib.Algebra.Order.Floor.Semifield
import Mathlib.Data.Int.Log
import Mathlib.Data.Nat.Cast.Field
import Mathlib.Data.Rat.Floor
import Mathlib.Tactic.FieldSimp
import Mathlib.Tactic.Ring
import Treewalk.Number.Decimal

/-!
Numbers as rationals. Magnitudes and decimals stand for rationals, and the bits of the nearest double depend on the rational
only, not on the numerator and the denominator that it is given by. So the shortest decimal of a magnitude is read as the double
that the magnitude is.
-/

namespace Treewalk.Number

/-- The number that a magnitude is. -/
def Magnitude.toRat (m : Magnitude) : ℚ := m.mantissa * 2 ^ m.exponent

/-- The number that a decimal is. -/
def Decimal.toRat (d : Decimal) : ℚ := d.coefficient * 10 ^ d.exponent

/-- A power is the ratio of one with a natural exponent to another. -/
theorem pow_toNat_div {b : ℚ} (hb : b ≠ 0) (e : ℤ) : b ^ e.toNat / b ^ (-e).toNat = b ^ e := by
  rw [← zpow_natCast, ← zpow_natCast, ← zpow_sub₀ hb]
  congr 1
  omega

theorem Magnitude.div_eq_toRat (m : Magnitude) : (m.numerator : ℚ) / m.denominator = m.toRat := by
  unfold numerator denominator toRat
  simp only [Nat.pow_eq]
  push_cast
  rw [mul_div_assoc, pow_toNat_div two_ne_zero]

theorem Decimal.div_eq_toRat (d : Decimal) : (d.numerator : ℚ) / d.denominator = d.toRat := by
  unfold numerator denominator toRat
  simp only [Nat.pow_eq]
  push_cast
  rw [mul_div_assoc, pow_toNat_div (by norm_num)]

theorem Magnitude.denominator_pos (m : Magnitude) : 0 < m.denominator := Nat.two_pow_pos _

theorem Decimal.denominator_pos (d : Decimal) : 0 < d.denominator := Nat.pow_pos (by decide)

/-- A whole magnitude is its floor. -/
theorem Magnitude.toRat_of_isWhole {m : Magnitude} (h : m.isWhole = true) : m.toRat = m.floor := by
  have hdvd : m.denominator ∣ m.numerator := Nat.dvd_of_mod_eq_zero (eq_of_beq h)
  rw [← m.div_eq_toRat, Magnitude.floor, Nat.cast_div hdvd (Nat.cast_ne_zero.mpr m.denominator_pos.ne')]

/-! ### Rounding -/

/-- The nearest natural number; a half goes to the even neighbour. -/
def roundEven (q : ℚ) : ℕ :=
  if Int.fract q < 1 / 2 then ⌊q⌋₊
  else if 1 / 2 < Int.fract q then ⌊q⌋₊ + 1
  else ⌊q⌋₊ + ⌊q⌋₊ % 2

theorem roundEven_natCast (n : ℕ) : roundEven n = n := by
  unfold roundEven
  rw [if_pos (by simp), Nat.floor_natCast]

theorem roundDiv_eq (num : ℕ) {den : ℕ} (hden : 0 < den) : roundDiv num den = roundEven ((num : ℚ) / den) := by
  have hpos : (0 : ℚ) < den := by exact_mod_cast hden
  unfold roundDiv roundEven
  rw [Int.fract_div_natCast_eq_div_natCast_mod, Nat.floor_div_eq_div]
  have hless : 2 * (num % den) < den ↔ ((num % den : ℕ) : ℚ) / den < 1 / 2 := by
    rw [div_lt_div_iff₀ hpos two_pos, one_mul, mul_comm]
    exact_mod_cast Iff.rfl
  have hmore : den < 2 * (num % den) ↔ 1 / 2 < ((num % den : ℕ) : ℚ) / den := by
    rw [div_lt_div_iff₀ two_pos hpos, one_mul, mul_comm]
    exact_mod_cast Iff.rfl
  simp only [hless, hmore]

/-! ### Binary logarithm -/

theorem log_eq_of_bounds {q : ℚ} {k : ℤ} (hlow : 2 ^ k ≤ q) (hhigh : q < 2 ^ (k + 1)) : Int.log 2 q = k := by
  have hq : 0 < q := lt_of_lt_of_le (zpow_pos two_pos k) hlow
  have hle : k ≤ Int.log 2 q := (Int.zpow_le_iff_le_log Nat.one_lt_two hq).mp (by exact_mod_cast hlow)
  have hlt : Int.log 2 q < k + 1 := (Int.lt_zpow_iff_log_lt Nat.one_lt_two hq).mp (by exact_mod_cast hhigh)
  omega

/-- A natural number lies between the powers of two that its logarithm gives. -/
theorem log2_bounds {n : ℕ} (hn : 0 < n) : (2 : ℚ) ^ (n.log2 : ℤ) ≤ n ∧ (n : ℚ) < 2 ^ (n.log2 + 1 : ℤ) := by
  have hlow : 2 ^ n.log2 ≤ n := Nat.log2_self_le hn.ne'
  have hhigh : n < 2 ^ (n.log2 + 1) := Nat.lt_log2_self
  exact ⟨by exact_mod_cast hlow, by exact_mod_cast hhigh⟩

theorem floorLog2_eq {num den : ℕ} (hnum : 0 < num) (hden : 0 < den) :
    floorLog2 num den = Int.log 2 ((num : ℚ) / den) := by
  have hpos : (0 : ℚ) < den := by exact_mod_cast hden
  obtain ⟨hnumLow, hnumHigh⟩ := log2_bounds hnum
  obtain ⟨hdenLow, hdenHigh⟩ := log2_bounds hden
  unfold floorLog2
  generalize hk : (num.log2 : ℤ) - den.log2 = k
  have hpow : den * 2 ^ k.toNat ≤ num * 2 ^ (-k).toNat ↔ (2 : ℚ) ^ k ≤ num / den := by
    rw [← pow_toNat_div two_ne_zero k, div_le_div_iff₀ (by positivity) hpos, mul_comm]
    exact_mod_cast Iff.rfl
  -- the estimate from the logarithms is right or one too high
  have hlow : (2 : ℚ) ^ (k - 1) ≤ num / den := by
    rw [le_div_iff₀ hpos]
    calc (2 : ℚ) ^ (k - 1) * den ≤ 2 ^ (k - 1) * 2 ^ (den.log2 + 1 : ℤ) :=
          mul_le_mul_of_nonneg_left hdenHigh.le (zpow_pos two_pos _).le
      _ = 2 ^ (num.log2 : ℤ) := by rw [← zpow_add₀ two_ne_zero, ← hk]; congr 1; ring
      _ ≤ num := hnumLow
  have hhigh : (num : ℚ) / den < 2 ^ (k + 1) := by
    rw [div_lt_iff₀ hpos]
    calc (num : ℚ) < 2 ^ (num.log2 + 1 : ℤ) := hnumHigh
      _ = 2 ^ (k + 1) * 2 ^ (den.log2 : ℤ) := by rw [← zpow_add₀ two_ne_zero, ← hk]; congr 1; ring
      _ ≤ 2 ^ (k + 1) * den := mul_le_mul_of_nonneg_left hdenLow (zpow_pos two_pos _).le
  dsimp only
  split
  · next h => exact (log_eq_of_bounds (hpow.mp h) hhigh).symm
  · next h =>
    refine (log_eq_of_bounds hlow ?_).symm
    rw [sub_add_cancel]
    exact lt_of_not_ge fun hle => h (hpow.mpr hle)

/-! ### The nearest double -/

/-- Bits of the double that is nearest to a number. -/
def bitsOf (q : ℚ) : ℕ :=
  if q = 0 then 0
  else
    let exponent := max (Int.log 2 q - 52) (-1074)
    min infinityBits ((exponent + 1074).toNat * 2 ^ 52 + roundEven (q / 2 ^ exponent))

theorem nearestBits_eq (num : ℕ) {den : ℕ} (hden : 0 < den) : nearestBits num den = bitsOf ((num : ℚ) / den) := by
  have hpos : (den : ℚ) ≠ 0 := by exact_mod_cast hden.ne'
  unfold nearestBits bitsOf
  by_cases hnum : num = 0
  · rw [if_pos hnum, if_pos (by rw [hnum, Nat.cast_zero, zero_div])]
  · have hne : (num : ℚ) / den ≠ 0 := div_ne_zero (by exact_mod_cast hnum) hpos
    rw [if_neg hnum, if_neg hne, floorLog2_eq (Nat.pos_of_ne_zero hnum) hden]
    generalize max (Int.log 2 ((num : ℚ) / den) - 52) (-1074) = e
    have hquotient : ((num * 2 ^ (-e).toNat : ℕ) : ℚ) / (den * 2 ^ e.toNat : ℕ) = num / den / 2 ^ e := by
      rw [← pow_toNat_div two_ne_zero e]
      push_cast
      field_simp
    simp only [Nat.pow_eq]
    rw [roundDiv_eq _ (Nat.mul_pos hden (Nat.two_pow_pos _)), hquotient]

theorem Decimal.bits_eq (d : Decimal) : d.bits = bitsOf d.toRat := by
  rw [Decimal.bits, nearestBits_eq _ d.denominator_pos, d.div_eq_toRat]

/-- A mantissa of 53 bits, or of fewer with the least exponent, is kept as it is. -/
theorem bitsOf_mantissa {mantissa : ℕ} {e : ℤ} (hpos : 0 < mantissa) (hlt : mantissa < 2 ^ 53) (he : -1074 ≤ e)
    (hnormal : e = -1074 ∨ 2 ^ 52 ≤ mantissa) :
    bitsOf (mantissa * 2 ^ e) = min infinityBits ((e + 1074).toNat * 2 ^ 52 + mantissa) := by
  have hpow : (0 : ℚ) < 2 ^ e := zpow_pos two_pos e
  have hq : (0 : ℚ) < mantissa * 2 ^ e := mul_pos (by exact_mod_cast hpos) hpow
  have hupper : Int.log 2 ((mantissa : ℚ) * 2 ^ e) < 53 + e := by
    refine (Int.lt_zpow_iff_log_lt Nat.one_lt_two hq).mp ?_
    rw [Nat.cast_ofNat, zpow_add₀ two_ne_zero]
    exact mul_lt_mul_of_pos_right (by exact_mod_cast hlt) hpow
  have hexponent : max (Int.log 2 ((mantissa : ℚ) * 2 ^ e) - 52) (-1074) = e := by
    rcases hnormal with rfl | hnormal
    · omega
    · have hlower : 52 + e ≤ Int.log 2 ((mantissa : ℚ) * 2 ^ e) := by
        refine (Int.zpow_le_iff_le_log Nat.one_lt_two hq).mp ?_
        rw [Nat.cast_ofNat, zpow_add₀ two_ne_zero]
        exact mul_le_mul_of_nonneg_right (by exact_mod_cast hnormal) hpow.le
      omega
  unfold bitsOf
  rw [if_neg hq.ne']
  dsimp only
  rw [hexponent, mul_div_assoc, div_self hpow.ne', mul_one, roundEven_natCast]

/-! ### Decimals of a magnitude -/

theorem Decimal.toRat_trim (d : Decimal) (rounds : ℕ) : (d.trim rounds).toRat = d.toRat := by
  induction rounds generalizing d with
  | zero => rfl
  | succ rounds ih =>
    rw [Decimal.trim]
    split
    · next h =>
      have hten : ((d.coefficient / 10 : ℕ) : ℚ) * 10 = d.coefficient := by
        exact_mod_cast Nat.div_mul_cancel (Nat.dvd_of_mod_eq_zero h.2)
      rw [ih, toRat, toRat, ← hten, zpow_add_one₀ (by norm_num)]
      ring
    · rfl

theorem Magnitude.toRat_toDecimal (m : Magnitude) : m.toDecimal.toRat = m.toRat := by
  unfold toDecimal
  split
  · next h =>
    have hpow : (2 : ℚ) ^ m.exponent.toNat = 2 ^ m.exponent := by rw [← zpow_natCast, Int.toNat_of_nonneg h]
    rw [Decimal.toRat, toRat, zpow_zero, mul_one, Nat.pow_eq]
    push_cast
    rw [hpow]
  · next h =>
    have hpow : (5 : ℚ) ^ (-m.exponent).toNat = (5 ^ m.exponent)⁻¹ := by
      rw [← zpow_natCast, Int.toNat_of_nonneg (by omega), zpow_neg]
    have hten : (10 : ℚ) ^ m.exponent = 5 ^ m.exponent * 2 ^ m.exponent := by
      rw [← mul_zpow]
      norm_num
    have hne : (5 : ℚ) ^ m.exponent ≠ 0 := zpow_ne_zero _ (by norm_num)
    rw [Decimal.toRat, toRat, Nat.pow_eq]
    push_cast
    rw [hpow, hten, mul_assoc, inv_mul_cancel_left₀ hne]

theorem Magnitude.bits_of_neighbour? {m : Magnitude} {tie : Tie} {target : ℕ} {exponent : ℤ} {d : Decimal}
    (h : m.neighbour? tie target exponent = some d) : d.bits = target := by
  unfold neighbour? at h
  dsimp only at h
  split at h
  · next hboth =>
    rw [Bool.and_eq_true, beq_iff_eq, beq_iff_eq] at hboth
    split at h
    · cases h
      exact hboth.1
    · cases h
      exact hboth.2
  · split at h
    · next hlower =>
      cases h
      exact beq_iff_eq.mp hlower
    · split at h
      · next hupper =>
        cases h
        exact beq_iff_eq.mp hupper
      · cases h

/-- The shortest decimal is read as the double that is nearest to the magnitude. -/
theorem Magnitude.bits_shortest (m : Magnitude) (tie : Tie) : (m.shortest tie).bits = bitsOf m.toRat := by
  unfold shortest
  split
  · next hzero =>
    rw [Decimal.bits_eq]
    congr 1
    rw [Decimal.toRat, toRat, hzero, Nat.cast_zero, zero_mul, zero_mul]
  · dsimp only
    split
    · next d hfound =>
      obtain ⟨k, -, hneighbour⟩ := List.exists_of_findSome?_eq_some hfound
      rw [Decimal.bits_eq, Decimal.toRat_trim, ← Decimal.bits_eq, bits_of_neighbour? hneighbour,
        nearestBits_eq _ m.denominator_pos, m.div_eq_toRat]
    · rw [Decimal.bits_eq, m.toRat_toDecimal]

end Treewalk.Number

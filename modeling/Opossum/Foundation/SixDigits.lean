import Opossum.Foundation.FloatValue
import Opossum.Foundation.Rounding

/-!
# Six decimal digits and the type `double`

What survives when a number is written with the six significant digits of `%g` and read as a `double`.
-/

namespace BinaryFloat
open Decimal
variable {n : Nat} {d : BinaryFloat 11 52}

/-- A number of at most 53 significant bits is the value of a `double`. -/
theorem exists_double (small : n < 2 ^ 53) {k : Int} (low : -1074 ≤ k) (high : k ≤ 971) :
    ∃ y : BinaryFloat 11 52, y.isFinite = true ∧ y.toRat = n * 2 ^ k := by
  have exponent : ((k + 1074).toNat : Int) = k + 1074 := Int.toNat_of_nonneg (by omega)
  obtain ⟨y, finite, value⟩ := exists_toRat_eq (e := 11) small (show (k + 1074).toNat + 3 ≤ 2 ^ 11 by omega)
  have unit : scale 11 52 = 1074 := rfl
  refine ⟨y, finite, ?_⟩
  rw [value, unit, ← zpow_natCast, ← zpow_natCast, exponent, mul_div_assoc, ← zpow_sub₀ (by norm_num)]
  congr 2
  omega

theorem exists_double_natCast (small : n < 2 ^ 53) :
    ∃ y : BinaryFloat 11 52, y.isFinite = true ∧ y.toRat = n := by
  obtain ⟨y, finite, value⟩ := exists_double small (k := 0) (by decide) (by decide)
  exact ⟨y, finite, by rw [value, zpow_zero, mul_one]⟩

theorem abs_toRat_le_double (finite : d.isFinite = true) :
    |d.toRat| ≤ (2 ^ 53 - 1 : Nat) * 2 ^ (971 : Int) := by
  have bound := abs_toRat_le finite
  have unit : scale 11 52 = 1074 := rfl
  have exponent : ((2 ^ 11 - 3 : Nat) : Int) = 971 + 1074 := by norm_num
  rw [unit, Nat.cast_mul, Nat.cast_pow, Nat.cast_ofNat, ← zpow_natCast, ← zpow_natCast, exponent,
    mul_div_assoc, ← zpow_sub₀ (by norm_num)] at bound
  exact bound

/-- Rounding the largest finite `double` to six digits does not leave the range of the type. -/
theorem rounded_le_double (finite : d.isFinite = true) :
    rounded 6 |d.toRat| ≤ (2 ^ 53 - 1 : Nat) * 2 ^ (971 : Int) := by
  obtain ⟨below, above⟩ : 179769 * 10 ^ 303 ≤ (2 ^ 53 - 1) * 2 ^ 971 ∧
      (2 ^ 53 - 1) * 2 ^ 971 * 2 < (179769 * 2 + 1) * 10 ^ 303 := by decide +kernel
  have belowQ : ((179769 : Nat) : ℚ) * 10 ^ (303 : Int) ≤ (2 ^ 53 - 1 : Nat) * 2 ^ (971 : Int) := by
    exact_mod_cast below
  have aboveQ : ((2 ^ 53 - 1 : Nat) : ℚ) * 2 ^ (971 : Int) * 2 < (179769 * 2 + 1) * 10 ^ (303 : Int) := by
    exact_mod_cast above
  have bound := abs_toRat_le_double finite
  refine le_trans ?_ belowQ
  rw [rounded_le_iff 5 (by decide) (by decide) _ (abs_nonneg _)]
  left
  generalize ((2 ^ 53 - 1 : Nat) : ℚ) * 2 ^ (971 : Int) = top at bound aboveQ
  rw [Nat.cast_ofNat]
  linarith

/-- Whole numbers of six digits are read exactly. -/
theorem toRat_of_whole {j : Nat} (few : n < 10 ^ 6) (bound : (n * 10 ^ j : ℚ) < 2 ^ 63)
    (faithful : Faithful (n * 10 ^ j) d) : d.toRat = n * 10 ^ j := by
  have boundNat : n * 10 ^ j < 2 ^ 63 := by exact_mod_cast bound
  obtain ⟨y, finite, value⟩ : ∃ y : BinaryFloat 11 52, y.isFinite = true ∧ y.toRat = n * 10 ^ j := by
    rcases n.eq_zero_or_pos with rfl | positive
    · obtain ⟨y, finite, value⟩ := exists_double_natCast (n := 0) (by decide)
      exact ⟨y, finite, by rw [value, Nat.cast_zero, zero_mul]⟩
    have split : n * 10 ^ j = n * 5 ^ j * 2 ^ j := by rw [Nat.mul_assoc, ← Nat.mul_pow]
    have short : j < 63 := by
      have power : 2 ^ j ≤ n * 5 ^ j * 2 ^ j := Nat.le_mul_of_pos_left _ (by positivity)
      exact (Nat.pow_lt_pow_iff_right (by decide : 1 < 2)).mp (by omega)
    have significand : n * 5 ^ j < 2 ^ 53 := by
      rcases Nat.lt_or_ge j 15 with small | large
      · have power : 5 ^ j ≤ 5 ^ 14 := Nat.pow_le_pow_right (by decide) (by omega)
        calc n * 5 ^ j ≤ 10 ^ 6 * 5 ^ 14 := Nat.mul_le_mul few.le power
          _ < 2 ^ 53 := by decide
      · have power : 2 ^ 15 ≤ 2 ^ j := Nat.pow_le_pow_right (by decide) large
        have product : n * 5 ^ j * 2 ^ 15 ≤ n * 5 ^ j * 2 ^ j := Nat.mul_le_mul_left _ power
        omega
    obtain ⟨y, finite, value⟩ := exists_double significand (k := j) (by omega) (by omega)
    refine ⟨y, finite, ?_⟩
    rw [value, zpow_natCast]
    exact_mod_cast split.symm
  exact faithful.eq finite value

/-- Between a number of six digits and the next whole number is a `double`. -/
theorem floor_of_fraction {k : Nat} (few : n < 10 ^ 6) (faithful : Faithful (n / 10 ^ k) d) :
    ⌊d.toRat⌋ = (n / 10 ^ k : Nat) := by
  have positive : 0 < 10 ^ k := Nat.pow_pos (by decide)
  have division := Nat.div_add_mod n (10 ^ k)
  have remainder := Nat.mod_lt n positive
  generalize n / 10 ^ k = whole at division ⊢
  generalize n % 10 ^ k = rest at division remainder
  have most : whole ≤ n := (Nat.le_mul_of_pos_left whole positive).trans (by omega)
  have weight : (0 : ℚ) < 10 ^ k := by positivity
  have number : (10 : ℚ) ^ k * whole + rest = n := by exact_mod_cast division
  have gap : (rest : ℚ) ≤ (1 - 1 / 2 ^ 20) * 10 ^ k := by
    have apart : rest * 2 ^ 20 + 10 ^ k ≤ 2 ^ 20 * 10 ^ k := by omega
    have apartQ : (rest : ℚ) * 2 ^ 20 + 10 ^ k ≤ 2 ^ 20 * 10 ^ k := by exact_mod_cast apart
    linarith
  obtain ⟨low, finiteLow, valueLow⟩ := exists_double_natCast (n := whole) (by omega)
  obtain ⟨high, finiteHigh, valueHigh⟩ := exists_double (n := (whole + 1) * 2 ^ 20 - 1) (k := -20)
    (by omega) (by decide) (by decide)
  have top : high.toRat = whole + 1 - 1 / 2 ^ 20 := by
    rw [valueHigh, Nat.cast_sub (by omega)]
    push_cast
    ring
  have below : (whole : ℚ) ≤ n / 10 ^ k := by
    rw [le_div_iff₀ weight]
    have nonneg : (0 : ℚ) ≤ rest := Nat.cast_nonneg rest
    linarith
  have above : (n : ℚ) / 10 ^ k ≤ whole + 1 - 1 / 2 ^ 20 := by
    rw [div_le_iff₀ weight]
    linarith
  rw [Int.floor_eq_iff, Int.cast_natCast]
  constructor
  · exact valueLow ▸ faithful.ge low finiteLow (by rw [valueLow]; exact below)
  · have kept := faithful.le high finiteHigh (by rw [top]; exact above)
    rw [top] at kept
    linarith

variable {r : ℚ}

theorem truncate_toRat_of_nonneg (few : FewDigits 6 r) (nonneg : 0 ≤ r) (bound : r < 2 ^ 63)
    (faithful : Faithful r d) : truncate d.toRat = truncate r := by
  obtain ⟨zero, finite, value⟩ := exists_double_natCast (n := 0) (by decide)
  rw [Nat.cast_zero] at value
  have nonnegD : 0 ≤ d.toRat := value ▸ faithful.ge zero finite (by rw [value]; exact nonneg)
  rw [truncate_of_nonneg nonneg, truncate_of_nonneg nonnegD]
  obtain ⟨n, x, small, same⟩ := few
  rw [abs_of_nonneg nonneg] at same
  obtain ⟨k, rfl | rfl⟩ := x.eq_nat_or_neg
  · rw [zpow_natCast] at same
    subst same
    rw [toRat_of_whole small bound faithful]
  · rw [zpow_neg, zpow_natCast, ← div_eq_mul_inv] at same
    subst same
    rw [floor_of_fraction small faithful]
    exact_mod_cast (Rat.floor_natCast_div_natCast n (10 ^ k)).symm

/-- Reading a number of six digits as a `double` keeps its whole part. -/
theorem truncate_toRat (few : FewDigits 6 r) (bound : |r| < 2 ^ 63) (faithful : Faithful r d) :
    truncate d.toRat = truncate r := by
  obtain ⟨below, above⟩ := abs_lt.mp bound
  rcases le_total 0 r with nonneg | nonpos
  · exact truncate_toRat_of_nonneg few nonneg above faithful
  · have flipped : FewDigits 6 (-r) := by rwa [FewDigits, abs_neg]
    have kept := truncate_toRat_of_nonneg flipped (neg_nonneg.mpr nonpos) (by linarith) faithful.neg
    rwa [toRat_neg, truncate_neg, truncate_neg, neg_inj] at kept

end BinaryFloat

import Mathlib.Data.Int.Log
import Mathlib.Data.Rat.Floor
import Opossum.Foundation.Decimal

/-!
# Rounding

To whole numbers, and to so many significant decimal digits, which is what `%g` writes.
-/

namespace Decimal

/-- The nearest whole number, and of two equally near ones the even one. -/
def roundEven (q : ℚ) : Int :=
  if q < ⌊q⌋ + 1 / 2 ∨ q = ⌊q⌋ + 1 / 2 ∧ ⌊q⌋ % 2 = 0 then ⌊q⌋ else ⌊q⌋ + 1

/-- Toward zero. -/
def truncate (q : ℚ) : Int := if q < 0 then ⌈q⌉ else ⌊q⌋

/-- The first digits of a number that is not negative, and the power of ten of the first of them. Rounding
up can make one digit more. -/
def leading (precision : Nat) (q : ℚ) : Nat × Int :=
  let x := Int.log 10 q
  let n := (roundEven (q / 10 ^ (x - (precision - 1)))).toNat
  if n < 10 ^ precision then (n, x) else (10 ^ (precision - 1), x + 1)

/-- The number that the first digits of `q` denote. -/
def rounded (precision : Nat) (q : ℚ) : ℚ :=
  (leading precision q).1 * 10 ^ ((leading precision q).2 - (precision - 1))

def significant (precision : Nat) (q : ℚ) : ℚ :=
  if q < 0 then -rounded precision (-q) else rounded precision q

/-- The text of `%g`. -/
def shown (precision : Nat) (negative : Bool) (size : ℚ) : List Char :=
  signed negative (general precision (leading precision size).1 (leading precision size).2)

theorem readNumber_shown {precision : Nat} (positive : 0 < precision) (negative : Bool) (size : ℚ) :
    readNumber (shown precision negative size) =
      some (if negative then -rounded precision size else rounded precision size) :=
  readNumber_general positive ..

theorem roundEven_le_iff {q : ℚ} {k : Int} : roundEven q ≤ k ↔ q < k + 1 / 2 ∨ q = k + 1 / 2 ∧ k % 2 = 0 := by
  have below := Int.floor_le q
  have above := Int.lt_floor_add_one q
  rcases lt_trichotomy k ⌊q⌋ with less | rfl | greater
  · have step : (k : ℚ) + 1 ≤ ⌊q⌋ := by exact_mod_cast less
    refine iff_of_false ?_ ?_
    · unfold roundEven
      split <;> omega
    · rintro (small | ⟨same, _⟩) <;> linarith
  · unfold roundEven
    split
    · rename_i near
      exact iff_of_true le_rfl near
    · rename_i far
      exact iff_of_false (by omega) far
  · have step : (⌊q⌋ : ℚ) + 1 ≤ k := by exact_mod_cast greater
    refine iff_of_true ?_ (Or.inl (by linarith))
    unfold roundEven
    split <;> omega

theorem roundEven_intCast (k : Int) : roundEven k = k := by
  unfold roundEven
  rw [Int.floor_intCast, if_pos (Or.inl (by linarith))]

theorem le_roundEven {q : ℚ} {k : Int} (above : (k : ℚ) ≤ q) : k ≤ roundEven q := by
  by_contra less
  rcases roundEven_le_iff.mp (show roundEven q ≤ k - 1 by omega) with small | ⟨same, _⟩
  · push_cast at small
    linarith
  · push_cast at same
    linarith

theorem truncate_intCast (z : Int) : truncate z = z := by
  simp [truncate]

theorem truncate_neg (q : ℚ) : truncate (-q) = -truncate q := by
  unfold truncate
  rcases lt_trichotomy q 0 with negative | rfl | positive
  · rw [if_neg (by linarith), if_pos negative, Int.floor_neg]
  · simp
  · rw [if_pos (by linarith), if_neg (by linarith), Int.ceil_neg]

theorem truncate_of_nonneg {q : ℚ} (nonneg : 0 ≤ q) : truncate q = ⌊q⌋ := if_neg (not_lt.mpr nonneg)

theorem abs_truncate (q : ℚ) : |truncate q| = ⌊|q|⌋ := by
  rcases le_total 0 q with nonneg | nonpos
  · rw [truncate_of_nonneg nonneg, abs_of_nonneg nonneg, abs_of_nonneg (Int.floor_nonneg.mpr nonneg)]
  · have flipped := truncate_of_nonneg (neg_nonneg.mpr nonpos)
    rw [truncate_neg] at flipped
    rw [← abs_neg, flipped, abs_of_nonpos nonpos,
      abs_of_nonneg (Int.floor_nonneg.mpr (neg_nonneg.mpr nonpos))]

section
variable {precision : Nat} {q : ℚ}

theorem rounded_zero : rounded precision 0 = 0 := by
  have none : roundEven 0 = 0 := roundEven_intCast 0
  simp [rounded, leading, none]

theorem zpow_split (precision : Nat) (x : Int) :
    (10 : ℚ) ^ x = 10 ^ precision * 10 ^ (x - precision) := by
  rw [← zpow_natCast, ← zpow_add₀ (by norm_num)]
  congr 1
  omega

theorem leading_bounds (precision : Nat) (positive : 0 < q) :
    (10 : ℚ) ^ precision ≤ q / 10 ^ (Int.log 10 q - precision) ∧
      q / 10 ^ (Int.log 10 q - precision) < 10 ^ (precision + 1) := by
  have weight : (0 : ℚ) < 10 ^ (Int.log 10 q - precision) := zpow_pos (by norm_num) _
  have below := Int.zpow_log_le_self (b := 10) (by decide) positive
  have above := Int.lt_zpow_succ_log_self (b := 10) (by decide) q
  rw [le_div_iff₀ weight, div_lt_iff₀ weight]
  constructor
  · rw [← zpow_split]
    exact_mod_cast below
  · rw [pow_succ, mul_right_comm, ← zpow_split, ← zpow_add_one₀ (by norm_num)]
    exact_mod_cast above

theorem roundEven_bounds (precision : Nat) (positive : 0 < q) :
    ((10 ^ precision : Nat) : Int) ≤ roundEven (q / 10 ^ (Int.log 10 q - precision)) ∧
      roundEven (q / 10 ^ (Int.log 10 q - precision)) ≤ (10 ^ (precision + 1) : Nat) := by
  obtain ⟨below, above⟩ := leading_bounds precision positive
  constructor
  · exact le_roundEven (by exact_mod_cast below)
  · rw [roundEven_le_iff]
    left
    push_cast
    linarith

/-- The digit that rounding up can add does not change the value. -/
theorem rounded_eq (positive : 0 < q) : rounded (precision + 1) q =
    roundEven (q / 10 ^ (Int.log 10 q - precision)) * 10 ^ (Int.log 10 q - precision) := by
  obtain ⟨least, greatest⟩ := roundEven_bounds precision positive
  have nonneg : 0 ≤ roundEven (q / 10 ^ (Int.log 10 q - precision)) := by omega
  simp only [rounded, leading, show ((precision + 1 : Nat) : Int) - 1 = precision by omega]
  split
  · rw [← Int.cast_natCast, Int.toNat_of_nonneg nonneg]
  · rename_i more
    have full : roundEven (q / 10 ^ (Int.log 10 q - precision)) = (10 ^ (precision + 1) : Nat) := by omega
    rw [full, Nat.add_sub_cancel, show Int.log 10 q + 1 - precision = Int.log 10 q - precision + 1 by omega,
      zpow_add_one₀ (by norm_num)]
    push_cast
    ring

theorem rounded_bounds (precision : Nat) (positive : 0 < q) :
    (10 : ℚ) ^ Int.log 10 q ≤ rounded (precision + 1) q ∧
      rounded (precision + 1) q ≤ 10 ^ (Int.log 10 q + 1) := by
  obtain ⟨least, greatest⟩ := roundEven_bounds precision positive
  have weight : (0 : ℚ) < 10 ^ (Int.log 10 q - precision) := zpow_pos (by norm_num) _
  rw [rounded_eq positive, zpow_add_one₀ (by norm_num), zpow_split precision (Int.log 10 q), mul_right_comm,
    ← pow_succ]
  constructor
  · exact mul_le_mul_of_nonneg_right (by exact_mod_cast least) weight.le
  · exact mul_le_mul_of_nonneg_right (by exact_mod_cast greatest) weight.le

theorem significant_signed (precision : Nat) (negative : Bool) (nonneg : 0 ≤ q) :
    significant precision (if negative then -q else q) =
      if negative then -rounded precision q else rounded precision q := by
  cases negative with
  | false => exact if_neg (not_lt.mpr nonneg)
  | true =>
    rcases nonneg.eq_or_lt with rfl | positive
    · simp [significant, rounded_zero]
    · exact (if_pos (neg_lt_zero.mpr positive)).trans (by simp)

theorem pow_le_rounded {k : Nat} (large : 10 ^ k ≤ q) : 10 ^ k ≤ rounded (precision + 1) q := by
  have positive : 0 < q := lt_of_lt_of_le (by positivity) large
  have exponent : (k : Int) ≤ Int.log 10 q := by
    rw [← Int.zpow_le_iff_le_log (by decide) positive, zpow_natCast]
    exact_mod_cast large
  calc (10 : ℚ) ^ k = 10 ^ (k : Int) := (zpow_natCast ..).symm
    _ ≤ 10 ^ Int.log 10 q := zpow_le_zpow_right₀ (by norm_num) exponent
    _ ≤ rounded (precision + 1) q := (rounded_bounds precision positive).1

/-- Where the numbers that round to at most `k` end, for `k` of `precision + 1` digits. -/
theorem rounded_le_iff (precision : Nat) {k : Nat} (many : 10 ^ precision ≤ k)
    (few : k < 10 ^ (precision + 1)) (x : Int) (nonneg : 0 ≤ q) : rounded (precision + 1) q ≤ k * 10 ^ x ↔
      q < (k + 1 / 2) * 10 ^ x ∨ q = (k + 1 / 2) * 10 ^ x ∧ k % 2 = 0 := by
  have weight : (0 : ℚ) < 10 ^ x := zpow_pos (by norm_num) _
  have manyQ : (10 : ℚ) ^ precision ≤ k := by exact_mod_cast many
  have fewQ : (k : ℚ) + 1 ≤ 10 ^ (precision + 1) := by exact_mod_cast few
  rcases nonneg.eq_or_lt with rfl | positive
  · rw [rounded_zero]
    exact iff_of_true (by positivity) (Or.inl (by positivity))
  have below : (10 : ℚ) ^ Int.log 10 q ≤ q := by
    exact_mod_cast Int.zpow_log_le_self (b := 10) (by decide) positive
  have above : q < (10 : ℚ) ^ (Int.log 10 q + 1) := by
    exact_mod_cast Int.lt_zpow_succ_log_self (b := 10) (by decide) q
  obtain ⟨least, greatest⟩ := rounded_bounds precision positive
  rcases lt_trichotomy (Int.log 10 q) (x + precision) with less | same | greater
  · have bound : (10 : ℚ) ^ (Int.log 10 q + 1) ≤ k * 10 ^ x := by
      calc (10 : ℚ) ^ (Int.log 10 q + 1) ≤ 10 ^ (x + precision) := zpow_le_zpow_right₀ (by norm_num) less
        _ = 10 ^ precision * 10 ^ x := by rw [zpow_split precision, Int.add_sub_cancel]
        _ ≤ k * 10 ^ x := mul_le_mul_of_nonneg_right manyQ weight.le
    exact iff_of_true (greatest.trans bound) (Or.inl (by linarith))
  · have exponent : Int.log 10 q - precision = x := by omega
    rw [rounded_eq positive, exponent, mul_le_mul_iff_of_pos_right weight, ← Int.cast_natCast, Int.cast_le,
      roundEven_le_iff, div_lt_iff₀ weight, div_eq_iff weight.ne']
    norm_cast
  · have bound : (k + 1) * (10 : ℚ) ^ x ≤ 10 ^ Int.log 10 q := by
      calc (k + 1) * (10 : ℚ) ^ x ≤ 10 ^ (precision + 1) * 10 ^ x := mul_le_mul_of_nonneg_right fewQ weight.le
        _ = 10 ^ (x + precision + 1) := by
          rw [zpow_split (precision + 1) (x + precision + 1)]
          congr 2
          omega
        _ ≤ 10 ^ Int.log 10 q := zpow_le_zpow_right₀ (by norm_num) greater
    refine iff_of_false (by linarith) ?_
    rintro (small | ⟨small, _⟩) <;> linarith

/-- A number that a few decimal digits denote exactly. -/
def FewDigits (precision : Nat) (r : ℚ) : Prop := ∃ (n : Nat) (x : Int), n < 10 ^ precision ∧ |r| = n * 10 ^ x

theorem rounded_nonneg (precision : Nat) (q : ℚ) : 0 ≤ rounded precision q := by
  exact mul_nonneg (Nat.cast_nonneg _) (zpow_nonneg (by norm_num) _)

theorem abs_significant (precision : Nat) (q : ℚ) : |significant precision q| = rounded precision |q| := by
  unfold significant
  split
  · rename_i negative
    rw [abs_neg, abs_of_nonneg (rounded_nonneg ..), abs_of_neg negative]
  · rename_i nonneg
    rw [abs_of_nonneg (rounded_nonneg ..), abs_of_nonneg (not_lt.mp nonneg)]

theorem fewDigits_significant (precision : Nat) (q : ℚ) :
    FewDigits (precision + 1) (significant (precision + 1) q) := by
  refine ⟨(leading (precision + 1) |q|).1,
    (leading (precision + 1) |q|).2 - ((precision + 1 : Nat) - 1), ?_, ?_⟩
  · simp only [leading]
    split
    · rename_i small
      exact small
    · exact Nat.pow_lt_pow_right (by decide) (by omega)
  · rw [abs_significant, rounded]

theorem rounded_of_lt {n : Nat} (small : n < 10 ^ (precision + 1)) (x : Int) :
    rounded (precision + 1) (n * 10 ^ x) = n * 10 ^ x := by
  rcases n.eq_zero_or_pos with rfl | some
  · rw [Nat.cast_zero, zero_mul, rounded_zero]
  have weight : (0 : ℚ) < 10 ^ x := zpow_pos (by norm_num) _
  have positive : (0 : ℚ) < n * 10 ^ x := mul_pos (by exact_mod_cast some) weight
  have bound : (n * 10 ^ x : ℚ) < ((10 : Nat) : ℚ) ^ (x + precision + 1) := by
    calc (n * 10 ^ x : ℚ) < 10 ^ (precision + 1) * 10 ^ x :=
          mul_lt_mul_of_pos_right (by exact_mod_cast small) weight
      _ = ((10 : Nat) : ℚ) ^ (x + precision + 1) := by
        rw [Nat.cast_ofNat, zpow_split (precision + 1) (x + precision + 1)]
        congr 2
        omega
  have less := (Int.lt_zpow_iff_log_lt (by decide) positive).mp bound
  rw [rounded_eq positive]
  generalize Int.log 10 (n * 10 ^ x : ℚ) = y at less ⊢
  obtain ⟨j, step⟩ := Int.le.dest (show y - precision ≤ x by omega)
  have quotient : (n * 10 ^ x : ℚ) / 10 ^ (y - precision) = ((n * 10 ^ j : Nat) : Int) := by
    rw [div_eq_iff (zpow_ne_zero _ (by norm_num)), ← step, zpow_add₀ (by norm_num), zpow_natCast]
    push_cast
    ring
  rw [quotient, roundEven_intCast, ← quotient, div_mul_cancel₀ _ (zpow_ne_zero _ (by norm_num))]

theorem significant_of_fewDigits (few : FewDigits (precision + 1) q) : significant (precision + 1) q = q := by
  obtain ⟨n, x, small, same⟩ := few
  have size : rounded (precision + 1) |q| = |q| := by rw [same, rounded_of_lt small]
  unfold significant
  split
  · rename_i negative
    rw [← abs_of_neg negative, size, abs_of_neg negative, neg_neg]
  · rename_i nonneg
    rwa [abs_of_nonneg (not_lt.mp nonneg)] at size

/-- Large numbers of few digits are far apart. -/
theorem FewDigits.exists_mul {k : Nat} (few : FewDigits precision q) (large : 10 ^ (precision + k) ≤ |q|) :
    ∃ j : Nat, |q| = j * 10 ^ (k + 1) := by
  obtain ⟨n, x, small, same⟩ := few
  have weight : (0 : ℚ) < 10 ^ x := zpow_pos (by norm_num) _
  have smallQ : (n : ℚ) < 10 ^ precision := by exact_mod_cast small
  have exponent : (k : Int) < x := by
    by_contra least
    have power : (10 : ℚ) ^ x ≤ 10 ^ k := by
      rw [← zpow_natCast]
      exact zpow_le_zpow_right₀ (by norm_num) (by omega)
    have bound : (n : ℚ) * 10 ^ x < 10 ^ precision * 10 ^ k :=
      mul_lt_mul_of_lt_of_le_of_nonneg_of_pos smallQ power (Nat.cast_nonneg _) (by positivity)
    rw [pow_add] at large
    linarith
  obtain ⟨j, step⟩ := Int.le.dest exponent
  refine ⟨n * 10 ^ j, ?_⟩
  rw [same, ← step]
  push_cast
  rw [zpow_add₀ (by norm_num), zpow_natCast]
  norm_cast
  ring

theorem FewDigits.le_or_ge {m : Nat} (few : FewDigits (precision + 1) q) (many : 10 ^ precision ≤ m)
    (k : Nat) : |q| ≤ m * 10 ^ (k + 1) ∨ (m + 1) * 10 ^ (k + 1) ≤ |q| := by
  have manyQ : (10 : ℚ) ^ precision ≤ m := by exact_mod_cast many
  by_cases large : 10 ^ (precision + 1 + k) ≤ |q|
  · obtain ⟨j, multiple⟩ := few.exists_mul large
    rw [multiple]
    rcases Nat.lt_or_ge m j with less | least
    · right
      gcongr
      exact_mod_cast less
    · left
      gcongr
  · left
    calc |q| ≤ 10 ^ (precision + 1 + k) := (not_le.mp large).le
      _ = 10 ^ precision * 10 ^ (k + 1) := by ring
      _ ≤ m * 10 ^ (k + 1) := by gcongr

/-- Rounding a whole number changes it unless it has few digits. -/
theorem fewDigits_of_truncate {z : Int} (same : truncate (significant (precision + 1) z) = z) :
    FewDigits (precision + 1) z := by
  have size : |(z : ℚ)| = z.natAbs := by rw [Nat.cast_natAbs, Int.cast_abs]
  by_cases small : z.natAbs < 10 ^ (precision + 1)
  · exact ⟨z.natAbs, 0, small, by rw [size, zpow_zero, mul_one]⟩
  have large : (10 : ℚ) ^ (precision + 1 + 0) ≤ |significant (precision + 1) z| := by
    rw [abs_significant, size]
    exact pow_le_rounded (by exact_mod_cast not_lt.mp small)
  have few := fewDigits_significant precision (z : ℚ)
  obtain ⟨j, multiple⟩ := few.exists_mul large
  obtain ⟨w, whole⟩ : ∃ w : Int, significant (precision + 1) z = w := by
    rcases eq_or_eq_neg_of_abs_eq multiple with same | same
    · exact ⟨j * 10 ^ (0 + 1), by rw [same]; push_cast; rfl⟩
    · exact ⟨-(j * 10 ^ (0 + 1)), by rw [same]; push_cast; rfl⟩
  rw [whole, truncate_intCast] at same
  rwa [whole, same] at few

end

end Decimal

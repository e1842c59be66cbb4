import Mathlib.Algebra.Order.Field.Rat
import Mathlib.Data.Fintype.Prod
import Mathlib.Data.Set.Finite.Lemmas
import Mathlib.Tactic.FieldSimp
import Mathlib.Tactic.Linarith
import Mathlib.Tactic.Positivity
import Mathlib.Tactic.Ring
import Opossum.Foundation.BinaryFloat

/-!
# The values of binary floating-point numbers

Every finite number is a whole multiple of the least positive one. Numbers with few significant bits are
the values of floats, and a float that was read for a rational number is on the same side of all of them.
-/

namespace BinaryFloat
variable {e m : Nat}

def isFinite (x : BinaryFloat e m) : Bool := x.magnitude.toNat < infinityMagnitude e m

/-- The value of a magnitude, as a multiple of the least positive one: fraction and exponent, with the
leading bit that normal numbers leave out. -/
def units (m magnitude : Nat) : Nat :=
  if magnitude < 2 ^ m then magnitude
  else (2 ^ m + magnitude % 2 ^ m) * 2 ^ (magnitude / 2 ^ m - 1)

/-- The least positive value is `1` divided by `2` to this power. -/
def scale (e m : Nat) : Nat := 2 ^ (e - 1) + m - 2

/-- The value of a finite number. -/
def toRat (x : BinaryFloat e m) : ℚ :=
  let size : ℚ := units m x.magnitude.toNat / 2 ^ scale e m
  if x.negative then -size else size

theorem units_of_lt {magnitude : Nat} (small : magnitude < 2 ^ (m + 1)) : units m magnitude = magnitude := by
  unfold units
  rw [Nat.pow_succ] at small
  split
  · rfl
  · rename_i normal
    have quotient : magnitude / 2 ^ m = 1 := by
      rw [Nat.div_eq_iff (Nat.two_pow_pos m)]
      omega
    have division := Nat.div_add_mod magnitude (2 ^ m)
    rw [quotient] at division ⊢
    omega

/-- The next exponent doubles the value of a normal number. -/
theorem units_add {magnitude : Nat} (normal : 2 ^ m ≤ magnitude) :
    units m (magnitude + 2 ^ m) = 2 * units m magnitude := by
  have positive := Nat.two_pow_pos m
  have quotient : 0 < magnitude / 2 ^ m := Nat.div_pos normal positive
  unfold units
  rw [if_neg (by omega), if_neg (by omega), Nat.add_mod_right, Nat.add_div_right _ positive,
    show magnitude / 2 ^ m + 1 - 1 = magnitude / 2 ^ m - 1 + 1 by omega, Nat.pow_succ]
  ring

/-- A number of at most `m + 1` significant bits is the value of a magnitude. -/
theorem exists_units_eq {significand : Nat} (small : significand < 2 ^ (m + 1)) (exponent : Nat) :
    ∃ magnitude, magnitude < (exponent + 2) * 2 ^ m ∧ units m magnitude = significand * 2 ^ exponent := by
  induction exponent with
  | zero =>
    refine ⟨significand, ?_, by rw [units_of_lt small, Nat.pow_zero, Nat.mul_one]⟩
    rwa [Nat.pow_succ, Nat.mul_comm] at small
  | succ exponent ih =>
    obtain ⟨magnitude, bound, same⟩ := ih
    have next : (exponent + 1 + 2) * 2 ^ m = (exponent + 2) * 2 ^ m + 2 ^ m := by ring
    by_cases normal : 2 ^ m ≤ magnitude
    · refine ⟨magnitude + 2 ^ m, by omega, ?_⟩
      rw [units_add normal, same, Nat.pow_succ]
      ring
    · have least : 2 * 2 ^ m ≤ (exponent + 1 + 2) * 2 ^ m := Nat.mul_le_mul_right _ (by omega)
      refine ⟨2 * magnitude, by omega, ?_⟩
      rw [units_of_lt (by rw [Nat.pow_succ]; omega), Nat.pow_succ, ← Nat.mul_assoc, ← same,
        units_of_lt (by rw [Nat.pow_succ]; omega), Nat.mul_comm]

def neg (x : BinaryFloat e m) : BinaryFloat e m := ⟨!x.negative, x.magnitude⟩

@[simp] theorem toRat_neg (x : BinaryFloat e m) : x.neg.toRat = -x.toRat := by
  unfold toRat neg
  cases x.negative <;> simp

/-- Up to the largest exponent, a number of few significant bits is the value of a float. -/
theorem exists_toRat_eq {significand exponent : Nat} (small : significand < 2 ^ (m + 1))
    (bounded : exponent + 3 ≤ 2 ^ e) :
    ∃ x : BinaryFloat e m, x.isFinite = true ∧ x.toRat = significand * 2 ^ exponent / 2 ^ scale e m := by
  obtain ⟨magnitude, bound, same⟩ := exists_units_eq small exponent
  have finite : magnitude < infinityMagnitude e m :=
    bound.trans_le (Nat.mul_le_mul_right _ (by omega))
  have fits : magnitude < 2 ^ (e + m) := by
    refine finite.trans_le ?_
    rw [Nat.pow_add]
    exact Nat.mul_le_mul_right _ (Nat.sub_le ..)
  have toNat : (BitVec.ofNat (e + m) magnitude).toNat = magnitude := by
    rw [BitVec.toNat_ofNat, Nat.mod_eq_of_lt fits]
  refine ⟨⟨false, BitVec.ofNat (e + m) magnitude⟩, ?_, ?_⟩
  · simpa [isFinite, toNat] using finite
  · simp [toRat, toNat, same]

theorem units_le {magnitude : Nat} (finite : magnitude < infinityMagnitude e m) :
    units m magnitude ≤ (2 ^ (m + 1) - 1) * 2 ^ (2 ^ e - 3) := by
  have positive := Nat.two_pow_pos m
  have double : 2 ^ (m + 1) = 2 * 2 ^ m := by rw [Nat.pow_succ, Nat.mul_comm]
  unfold units
  split
  · have one : 1 ≤ 2 ^ (2 ^ e - 3) := Nat.one_le_two_pow
    calc magnitude ≤ 2 ^ (m + 1) - 1 := by omega
      _ ≤ (2 ^ (m + 1) - 1) * 2 ^ (2 ^ e - 3) := Nat.le_mul_of_pos_right _ one
  · have remainder := Nat.mod_lt magnitude positive
    have quotient : magnitude / 2 ^ m < 2 ^ e - 1 := (Nat.div_lt_iff_lt_mul positive).mpr finite
    exact Nat.mul_le_mul (by omega) (Nat.pow_le_pow_right (by decide) (by omega))

theorem abs_toRat (x : BinaryFloat e m) : |x.toRat| = units m x.magnitude.toNat / 2 ^ scale e m := by
  have nonneg : (0 : ℚ) ≤ units m x.magnitude.toNat / 2 ^ scale e m := by positivity
  unfold toRat
  split
  · rw [abs_neg, abs_of_nonneg nonneg]
  · exact abs_of_nonneg nonneg

theorem toRat_eq (x : BinaryFloat e m) : x.toRat = if x.negative then -|x.toRat| else |x.toRat| := by
  rw [abs_toRat]
  rfl

theorem isNaN_eq_false {x : BinaryFloat e m} (finite : x.isFinite = true) : x.isNaN = false := by
  simp only [isFinite, isNaN, decide_eq_true_eq, decide_eq_false_iff_not] at finite ⊢
  omega

theorem abs_toRat_le {x : BinaryFloat e m} (finite : x.isFinite = true) :
    |x.toRat| ≤ ((2 ^ (m + 1) - 1) * 2 ^ (2 ^ e - 3) : Nat) / 2 ^ scale e m := by
  have bound : (units m x.magnitude.toNat : ℚ) ≤ ((2 ^ (m + 1) - 1) * 2 ^ (2 ^ e - 3) : Nat) :=
    Nat.cast_le.mpr (units_le (by simpa [isFinite] using finite))
  rw [abs_toRat]
  gcongr

/-- A float read for `q`: no value of a float is strictly between it and `q`. -/
structure Faithful (q : ℚ) (x : BinaryFloat e m) : Prop where
  finite : x.isFinite = true
  le : ∀ y : BinaryFloat e m, y.isFinite = true → q ≤ y.toRat → x.toRat ≤ y.toRat
  ge : ∀ y : BinaryFloat e m, y.isFinite = true → y.toRat ≤ q → y.toRat ≤ x.toRat

instance : Finite (BinaryFloat e m) := by
  refine Finite.of_injective (fun x : BinaryFloat e m => (x.negative, x.magnitude.toFin)) ?_
  rintro ⟨negative, magnitude⟩ ⟨negative', magnitude'⟩ same
  obtain ⟨rfl, equal⟩ := Prod.mk.inj same
  exact congrArg _ (BitVec.toFin_inj.mp equal)

/-- The greatest value that is not above `q` is faithful. -/
theorem exists_faithful {q : ℚ} {y : BinaryFloat e m} (finite : y.isFinite = true) (below : y.toRat ≤ q) :
    ∃ x : BinaryFloat e m, Faithful q x := by
  obtain ⟨x, ⟨finiteX, belowX⟩, greatest⟩ := Set.exists_max_image
    { x : BinaryFloat e m | x.isFinite = true ∧ x.toRat ≤ q } toRat (Set.toFinite _) ⟨y, finite, below⟩
  exact ⟨x, finiteX, fun z _ above => belowX.trans above, fun z finiteZ belowZ =>
    greatest z ⟨finiteZ, belowZ⟩⟩

theorem Faithful.eq {q : ℚ} {x y : BinaryFloat e m} (faithful : Faithful q x) (finite : y.isFinite = true)
    (same : y.toRat = q) : x.toRat = q :=
  same ▸ le_antisymm (faithful.le y finite same.ge) (faithful.ge y finite same.le)

theorem Faithful.neg {q : ℚ} {x : BinaryFloat e m} (faithful : Faithful q x) : Faithful (-q) x.neg where
  finite := faithful.finite
  le y finite above := by
    have below := faithful.ge y.neg finite (by rw [toRat_neg]; linarith)
    rw [toRat_neg] at below ⊢
    linarith
  ge y finite below := by
    have above := faithful.le y.neg finite (by rw [toRat_neg]; linarith)
    rw [toRat_neg] at above ⊢
    linarith

end BinaryFloat

import Opossum.Foundation.Ranges
import Mathlib.Algebra.Ring.Nat

/-!
# Binary floating-point numbers

The interchange formats with `e` exponent and `m` fraction bits, as far as comparing goes: a sign
and a magnitude whose numeric order is the order of the values. Comparisons with a NaN are false.
-/

structure BinaryFloat (e m : Nat) where
  negative : Bool
  magnitude : BitVec (e + m)
  deriving DecidableEq

namespace BinaryFloat
variable {e m : Nat}

/-- Exponent all ones and fraction zero. -/
def infinityMagnitude (e m : Nat) : Nat := (2 ^ e - 1) * 2 ^ m

def isNaN (x : BinaryFloat e m) : Bool := infinityMagnitude e m < x.magnitude.toNat

/-- Both zeros have rank `0`. -/
def rank (x : BinaryFloat e m) : Int :=
  if x.negative then -x.magnitude.toNat else x.magnitude.toNat

instance : LT (BinaryFloat e m) :=
  ⟨fun x y => x.isNaN = false ∧ y.isNaN = false ∧ x.rank < y.rank⟩

instance : DecidableLT (BinaryFloat e m) := fun x y =>
  inferInstanceAs (Decidable (x.isNaN = false ∧ y.isNaN = false ∧ x.rank < y.rank))

instance : BEq (BinaryFloat e m) := ⟨fun x y => !x.isNaN && !y.isNaN && x.rank == y.rank⟩

/-- The two zeros are equal without being the same, so no such format is totally ordered. -/
theorem not_totallyOrdered : ¬TotallyOrdered (BinaryFloat e m) := by
  intro ordered
  have zeros := (ordered.beq_iff ⟨false, 0⟩ ⟨true, 0⟩).mp (by simp [BEq.beq, isNaN, rank])
  simp at zeros

end BinaryFloat

import Opossum.Foundation.Outcome
import Opossum.Types

namespace Opossum

/-- `FittedAttributeVector<T>` for an unsigned type `T` of `w` bits. -/
structure FittedAttributeVector (w : Nat) where
  data : List (BitVec w)
  deriving DecidableEq

namespace FittedAttributeVector
variable {w : Nat}

def width (_ : FittedAttributeVector w) : Nat := w / 8

def size (v : FittedAttributeVector w) : Nat := v.data.length

/-- The constructor. All entries are `0` until they are set. -/
def new (w size : Nat) : Except Fault (FittedAttributeVector w) :=
  if size ≤ 2 ^ w - 1 then
    .ok ⟨List.replicate size 0⟩
  else
    .error (.logicError ("Size " ++ toString size ++ "too large for vector of width " ++
      toString (w / 8) ++ "!"))

def get [Build] (v : FittedAttributeVector w) (i : Nat) : Except Fault ValueID := do
  debugAssert "src/lib/storage/fitted_attribute_vector.hpp:28" (i < v.size) "Index out of bounds!"
  match v.data[i]? with
  | some id => .ok ⟨id.setWidth 32⟩
  | none => .error .undefined

/-- The assertion lets `i = size()` through to the unchecked write. -/
def set (v : FittedAttributeVector w) (i : Nat) (valueID : ValueID) :
    Outcome Fault (FittedAttributeVector w) :=
  if i ≤ v.size then
    if i < v.size then
      .returned ⟨v.data.set i (valueID.toBitVec.setWidth w)⟩
    else
      .stopped .undefined v
  else
    .stopped (.logicError ("Index " ++ toString i ++ " too large for fitted attribute vector of size " ++
      toString v.size ++ "!")) v

variable {v : FittedAttributeVector w} {i : Nat}

theorem set_eq_returned (inside : i < v.size) (id : ValueID) :
    v.set i id = .returned ⟨v.data.set i (id.toBitVec.setWidth w)⟩ := by
  rw [set, if_pos inside.le, if_pos inside]

theorem get_eq_ok [Build] (inside : i < v.size) : v.get i = .ok ⟨(v.data.get ⟨i, inside⟩).setWidth 32⟩ := by
  have found : v.data[i]? = some (v.data.get ⟨i, inside⟩) := List.getElem?_eq_getElem inside
  simp [get, inside, found, bind, Except.bind]

end FittedAttributeVector

/-- A `BaseAttributeVector`: a fitted attribute vector of some width. -/
structure BaseAttributeVector where
  {bits : Nat}
  vector : FittedAttributeVector bits

namespace BaseAttributeVector

def width (v : BaseAttributeVector) : Nat := v.vector.width

def size (v : BaseAttributeVector) : Nat := v.vector.size

def get [Build] (v : BaseAttributeVector) (i : Nat) : Except Fault ValueID := v.vector.get i

def set (v : BaseAttributeVector) (i : Nat) (valueID : ValueID) : Outcome Fault BaseAttributeVector :=
  (v.vector.set i valueID).within mk

end BaseAttributeVector

end Opossum

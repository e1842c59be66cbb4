import Opossum.Foundation.BinaryFloat
import Mathlib.Data.String.Basic
import Mathlib.Data.UInt

namespace Opossum

/-- What a call can stop with. `undefined` is no exception: the C++ standard says nothing about the
program from there on, so no caller can catch it. -/
inductive Fault
  | logicError (what : String)
  | runtimeError (what : String)
  | outOfRange
  | badLexicalCast
  | badNumericCast
  | undefined
  deriving DecidableEq

def Fault.Catchable (fault : Fault) : Prop := fault ≠ .undefined

instance : DecidablePred Fault.Catchable := fun fault =>
  inferInstanceAs (Decidable (fault ≠ .undefined))

abbrev ChunkID := UInt32
abbrev ColumnID := UInt16
abbrev ValueID := UInt32

theorem toNat_eq_zero_iff {n : UInt32} : n.toNat = 0 ↔ n = 0 := by
  rw [← UInt32.toNat_inj, UInt32.toNat_zero]

/-- The alternatives of `COLUMN_TYPES`. -/
inductive ColumnType
  | int
  | long
  | float
  | double
  | string
  deriving DecidableEq

/-- `type_strings` -/
def ColumnType.typeString : ColumnType → String
  | .int => "int"
  | .long => "long"
  | .float => "float"
  | .double => "double"
  | .string => "string"

def types : List ColumnType := [.int, .long, .float, .double, .string]

def columnTypes : List (String × ColumnType) := types.map fun T => (T.typeString, T)

/-- The C++ type of an element. A `std::string` is a `String` with one `Char` for each byte. -/
def ColumnType.Elem : ColumnType → Type
  | .int => Int32
  | .long => Int64
  | .float => BinaryFloat 8 23
  | .double => BinaryFloat 11 52
  | .string => String

namespace ColumnType

instance : (T : ColumnType) → DecidableEq T.Elem
  | .int => inferInstanceAs (DecidableEq Int32)
  | .long => inferInstanceAs (DecidableEq Int64)
  | .float => inferInstanceAs (DecidableEq (BinaryFloat 8 23))
  | .double => inferInstanceAs (DecidableEq (BinaryFloat 11 52))
  | .string => inferInstanceAs (DecidableEq String)

instance : (T : ColumnType) → LT T.Elem
  | .int => inferInstanceAs (LT Int32)
  | .long => inferInstanceAs (LT Int64)
  | .float => inferInstanceAs (LT (BinaryFloat 8 23))
  | .double => inferInstanceAs (LT (BinaryFloat 11 52))
  | .string => inferInstanceAs (LT String)

instance : (T : ColumnType) → DecidableLT T.Elem
  | .int => inferInstanceAs (DecidableLT Int32)
  | .long => inferInstanceAs (DecidableLT Int64)
  | .float => inferInstanceAs (DecidableLT (BinaryFloat 8 23))
  | .double => inferInstanceAs (DecidableLT (BinaryFloat 11 52))
  | .string => inferInstanceAs (DecidableLT String)

instance : (T : ColumnType) → BEq T.Elem
  | .int => inferInstanceAs (BEq Int32)
  | .long => inferInstanceAs (BEq Int64)
  | .float => inferInstanceAs (BEq (BinaryFloat 8 23))
  | .double => inferInstanceAs (BEq (BinaryFloat 11 52))
  | .string => inferInstanceAs (BEq String)

instance : TotallyOrdered Int32 where
  irrefl a := by simp
  trans := by simp only [Int32.lt_iff_toInt_lt]; omega
  connected a b := by simp only [Int32.lt_iff_toInt_lt, ← Int32.toInt_inj]; omega
  beq_iff _ _ := beq_iff_eq

instance : TotallyOrdered Int64 where
  irrefl a := by simp
  trans := by simp only [Int64.lt_iff_toInt_lt]; omega
  connected a b := by simp only [Int64.lt_iff_toInt_lt, ← Int64.toInt_inj]; omega
  beq_iff _ _ := beq_iff_eq

/-- The element types on which the dictionary of a column is well defined. -/
def Ordered (T : ColumnType) : Prop := TotallyOrdered T.Elem

theorem ordered_iff {T : ColumnType} : T.Ordered ↔ T = .int ∨ T = .long ∨ T = .string := by
  cases T with
  | int => exact iff_of_true (inferInstanceAs (TotallyOrdered Int32)) (Or.inl rfl)
  | long => exact iff_of_true (inferInstanceAs (TotallyOrdered Int64)) (Or.inr (Or.inl rfl))
  | float => exact iff_of_false (BinaryFloat.not_totallyOrdered (e := 8) (m := 23)) (by simp)
  | double => exact iff_of_false (BinaryFloat.not_totallyOrdered (e := 11) (m := 52)) (by simp)
  | string => exact iff_of_true (inferInstanceAs (TotallyOrdered String)) (Or.inr (Or.inr rfl))

theorem typeString_injective {T U : ColumnType} (same : T.typeString = U.typeString) : T = U := by
  cases T <;> cases U <;> first | rfl | exact absurd same (by decide)

end ColumnType

/-- A `boost::variant` over the column types: the index of the alternative and its value. -/
structure AllTypeVariant where
  which : ColumnType
  value : which.Elem
  deriving DecidableEq

/-- What the sources leave to the build: the build type and the two conversions of boost, which
throw where they give `none`. -/
class Build where
  isDebug : Bool
  lexicalCast : (T : ColumnType) → AllTypeVariant → Option T.Elem
  numericCast : (T : ColumnType) → ColumnType.Elem .double → Option T.Elem

/-- `Assert`: checked in every build. -/
def assert (value : Bool) (msg : String) : Except Fault Unit :=
  if value then .ok () else .error (.logicError msg)

/-- `DebugAssert`: checked in debug builds only, and reported with its place in the sources. -/
def debugAssert [Build] (place : String) (value : Bool) (msg : String) : Except Fault Unit :=
  if Build.isDebug then assert value (place ++ " " ++ msg) else .ok ()

@[simp] theorem assert_true (msg : String) : assert true msg = .ok () := rfl

@[simp] theorem debugAssert_true [Build] (place msg : String) : debugAssert place true msg = .ok () := by
  simp [debugAssert]

theorem assert_eq_ok {value : Bool} {msg : String} : assert value msg = .ok () ↔ value = true := by
  unfold assert
  split <;> simp_all

theorem assert_bind_eq_ok {α : Type} {value : Bool} {msg : String} {next : Unit → Except Fault α}
    {x : α} : assert value msg >>= next = .ok x ↔ value = true ∧ next () = .ok x := by
  cases value <;> simp [assert, bind, Except.bind]

theorem catchable_of_assert {value : Bool} {msg : String} {fault : Fault}
    (thrown : assert value msg = .error fault) : fault.Catchable := by
  unfold assert at thrown
  split at thrown
  · cases thrown
  · cases thrown
    simp [Fault.Catchable]

end Opossum

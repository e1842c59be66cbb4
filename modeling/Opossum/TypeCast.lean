import Opossum.Foundation.Outcome
import Opossum.Types

namespace Opossum
variable [Build]

def ColumnType.isIntegral : ColumnType → Bool
  | .int | .long => true
  | .float | .double | .string => false

/-- `boost::lexical_cast` -/
def lexicalCast (T : ColumnType) (value : AllTypeVariant) : Except Fault T.Elem :=
  match Build.lexicalCast T value with
  | some x => .ok x
  | none => .error .badLexicalCast

/-- `boost::numeric_cast` from `double` -/
def numericCast (T : ColumnType) (value : ColumnType.Elem .double) : Except Fault T.Elem :=
  match Build.numericCast T value with
  | some x => .ok x
  | none => .error .badNumericCast

/-- `type_cast`. For integral types a failed parse is caught, and the text is read as a `double`. -/
def typeCast (T : ColumnType) (value : AllTypeVariant) : Except Fault T.Elem :=
  if same : value.which = T then
    .ok (same ▸ value.value)
  else if T.isIntegral then
    match lexicalCast T value with
    | .ok x => .ok x
    | .error _ => lexicalCast .double value >>= numericCast T
  else
    lexicalCast T value

/-- The value that a column of type `T` holds after `value` has been appended, read as a variant. -/
def castTo (T : ColumnType) (value : AllTypeVariant) : Except Fault AllTypeVariant :=
  (typeCast T value).map (.mk T)

theorem catchable_of_lexicalCast {T : ColumnType} {value : AllTypeVariant} {fault : Fault}
    (thrown : lexicalCast T value = .error fault) : fault.Catchable := by
  unfold lexicalCast at thrown
  split at thrown
  · cases thrown
  · cases thrown
    simp [Fault.Catchable]

theorem catchable_of_numericCast {T : ColumnType} {value : ColumnType.Elem .double} {fault : Fault}
    (thrown : numericCast T value = .error fault) : fault.Catchable := by
  unfold numericCast at thrown
  split at thrown
  · cases thrown
  · cases thrown
    simp [Fault.Catchable]

theorem catchable_of_typeCast {T : ColumnType} {value : AllTypeVariant} {fault : Fault}
    (thrown : typeCast T value = .error fault) : fault.Catchable := by
  unfold typeCast at thrown
  split at thrown
  · cases thrown
  split at thrown
  · split at thrown
    · cases thrown
    · rcases Except.bind_eq_error.mp thrown with parse | ⟨x, _, convert⟩
      · exact catchable_of_lexicalCast parse
      · exact catchable_of_numericCast convert
  · exact catchable_of_lexicalCast thrown

/-- A debug build whose conversions reject every text, as boost's do when it is no number. -/
@[reducible] def strictBuild : Build := ⟨true, fun _ _ => none, fun _ _ => none⟩

end Opossum

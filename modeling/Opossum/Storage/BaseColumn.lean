import Opossum.Foundation.Pointwise
import Opossum.Storage.DictionaryColumn

namespace Opossum

/-- A column object with its element type. `ReferenceColumn` is declared but never defined. -/
inductive BaseColumn
  | value (T : ColumnType) (column : ValueColumn T.Elem)
  | dictionary (T : ColumnType) (column : DictionaryColumn T.Elem)

namespace BaseColumn

def elementType : BaseColumn → ColumnType
  | value T _ => T
  | dictionary T _ => T

def isValue : BaseColumn → Bool
  | value _ _ => true
  | dictionary _ _ => false

def size : BaseColumn → Nat
  | value _ c => c.size
  | dictionary _ c => c.size

/-- `operator[]` -/
def entry [Build] (column : BaseColumn) (i : Nat) : Except Fault AllTypeVariant :=
  match column with
  | value T c => (c.entry i).map (.mk T)
  | dictionary T c => (c.get i).map (.mk T)

def append [Build] (column : BaseColumn) (val : AllTypeVariant) : Outcome Fault BaseColumn :=
  match column with
  | value T c => (c.append T val).within (value T)
  | dictionary T c => (c.append val).within (dictionary T)

/-- `std::dynamic_pointer_cast<ValueColumn<T>>` -/
def asValueColumn (T : ColumnType) : BaseColumn → Option (ValueColumn T.Elem)
  | value U c => if same : U = T then some (same ▸ c) else none
  | dictionary _ _ => none

@[simp] theorem elementType_value (T : ColumnType) (c : ValueColumn T.Elem) :
    (value T c).elementType = T := rfl
@[simp] theorem elementType_dictionary (T : ColumnType) (c : DictionaryColumn T.Elem) :
    (dictionary T c).elementType = T := rfl
@[simp] theorem isValue_value (T : ColumnType) (c : ValueColumn T.Elem) :
    (value T c).isValue = true := rfl
@[simp] theorem isValue_dictionary (T : ColumnType) (c : DictionaryColumn T.Elem) :
    (dictionary T c).isValue = false := rfl

@[simp] theorem asValueColumn_value (T : ColumnType) (c : ValueColumn T.Elem) :
    (value T c).asValueColumn T = some c := by
  simp [asValueColumn]

@[simp] theorem asValueColumn_dictionary (T U : ColumnType) (c : DictionaryColumn U.Elem) :
    (dictionary U c).asValueColumn T = none := rfl

/-- The cast finds exactly the value columns of the wanted element type. -/
theorem asValueColumn_eq_some {T : ColumnType} {column : BaseColumn} {c : ValueColumn T.Elem} :
    column.asValueColumn T = some c ↔ column = value T c := by
  constructor
  · intro cast
    cases column with
    | value U d =>
      by_cases same : U = T
      · subst same
        rw [asValueColumn_value] at cast
        rw [Option.some.inj cast]
      · simp [asValueColumn, same] at cast
    | dictionary U d => cases cast
  · rintro rfl
    simp

theorem append_dictionary [Build] (T : ColumnType) (c : DictionaryColumn T.Elem) (val : AllTypeVariant) :
    (dictionary T c).append val =
      .stopped (.runtimeError "Appending to a compressed column is not supported!") (dictionary T c) :=
  rfl

theorem append_value [Build] (T : ColumnType) (c : ValueColumn T.Elem) (val : AllTypeVariant) :
    (value T c).append val =
      Outcome.ofExcept (value T c) ((typeCast T val).map fun x => value T ⟨c.values ++ [x]⟩) := by
  cases cast : typeCast T val <;> simp [append, ValueColumn.append, cast, Except.map]

/-- Only value columns accept values, and only those they can cast. -/
theorem append_eq_returned [Build] {column left : BaseColumn} {val : AllTypeVariant} :
    column.append val = .returned left ↔ ∃ T c x, column = value T c ∧ typeCast T val = .ok x ∧
      left = value T ⟨c.values ++ [x]⟩ := by
  cases column with
  | value T c =>
    rw [append_value, Outcome.ofExcept_eq_returned, Except.map_eq_ok]
    constructor
    · rintro ⟨x, cast, rfl⟩
      exact ⟨T, c, x, rfl, cast, rfl⟩
    · rintro ⟨U, d, y, same, cast, rfl⟩
      cases same
      exact ⟨y, cast, rfl⟩
  | dictionary T c => simp [append_dictionary]

/-- A column that throws has not been written. -/
theorem append_eq_stopped [Build] {column left : BaseColumn} {val : AllTypeVariant} {fault : Fault}
    (run : column.append val = .stopped fault left) : left = column ∧ fault.Catchable := by
  cases column with
  | value T c =>
    rw [append_value, Outcome.ofExcept_eq_stopped, Except.map_eq_error] at run
    exact ⟨run.2.symm, catchable_of_typeCast run.1⟩
  | dictionary T c =>
    rw [append_dictionary] at run
    cases run
    exact ⟨rfl, by simp [Fault.Catchable]⟩

theorem entry_value [Build] {T : ColumnType} {c : ValueColumn T.Elem} {i : Nat}
    (inside : i < c.values.length) : (value T c).entry i = .ok ⟨T, c.values[i]⟩ := by
  simp [entry, ValueColumn.entry, inside, Except.map]

/-- `make_unique_by_column_type<BaseColumn, ValueColumn>` -/
def newValueColumn (T : ColumnType) : Except Fault BaseColumn :=
  .ok (value T ⟨[]⟩)

/-- `make_unique_by_column_type<BaseColumn, DictionaryColumn>`, given its constructor argument -/
def newDictionaryColumn (column : BaseColumn) (T : ColumnType) : Except Fault BaseColumn :=
  (DictionaryColumn.new (column.asValueColumn T)).map (dictionary T)

end BaseColumn

/-- `make_unique_by_column_type`: `create` is the constructor of the class for each column type.
A release build gives a null pointer for a type string that no column type has. -/
def makeUniqueByColumnType [Build] (create : ColumnType → Except Fault BaseColumn) (type : String) :
    Except Fault (Option BaseColumn) := do
  let ret ← columnTypes.foldlM (fun ret x =>
    if x.1 = type then (create x.2).map some else .ok ret) (none : Option BaseColumn)
  debugAssert "src/lib/resolve_type.hpp:60" ret.isSome ("unknown type " ++ type)
  return ret

/-- `make_shared_by_column_type` -/
def makeSharedByColumnType [Build] (create : ColumnType → Except Fault BaseColumn) (type : String) :
    Except Fault (Option BaseColumn) :=
  makeUniqueByColumnType create type

/-- The type string is one of the names in `column_types`. -/
def Supported (type : String) : Prop := ∃ T : ColumnType, T.typeString = type

instance : DecidablePred Supported := fun type =>
  decidable_of_iff (∃ T ∈ types, T.typeString = type) (by
    constructor
    · rintro ⟨T, _, same⟩
      exact ⟨T, same⟩
    · rintro ⟨T, same⟩
      exact ⟨T, by cases T <;> decide, same⟩)

theorem makeUniqueByColumnType_eq [Build] (create : ColumnType → Except Fault BaseColumn)
    (type : String) :
    makeUniqueByColumnType create type = (do
      let ret ← types.foldlM (fun ret T =>
        if T.typeString = type then (create T).map some else .ok ret) (none : Option BaseColumn)
      debugAssert "src/lib/resolve_type.hpp:60" ret.isSome ("unknown type " ++ type)
      return ret) := by
  rw [makeUniqueByColumnType, columnTypes, List.foldlM_map]

theorem makeSharedByColumnType_typeString [Build] (create : ColumnType → Except Fault BaseColumn)
    (T : ColumnType) : makeSharedByColumnType create T.typeString = (create T).map some := by
  have names (U : ColumnType) : U.typeString = T.typeString ↔ U = T :=
    ⟨ColumnType.typeString_injective, congrArg _⟩
  rw [makeSharedByColumnType, makeUniqueByColumnType_eq]
  simp only [names, types, List.foldlM_cons, List.foldlM_nil]
  cases made : create T <;> cases T <;>
    simp [made, debugAssert, assert, bind, Except.bind, pure, Except.pure, Except.map]

/-- A type string without a column type: an error in a debug build, a null pointer in a release
build. -/
theorem makeSharedByColumnType_unsupported [Build] (create : ColumnType → Except Fault BaseColumn)
    {type : String} (unsupported : ¬Supported type) :
    makeSharedByColumnType create type =
      if Build.isDebug then
        .error (.logicError ("src/lib/resolve_type.hpp:60" ++ " " ++ ("unknown type " ++ type)))
      else .ok none := by
  have different (T : ColumnType) : T.typeString ≠ type := fun same => unsupported ⟨T, same⟩
  rw [makeSharedByColumnType, makeUniqueByColumnType_eq]
  simp only [different, types, List.foldlM_cons, List.foldlM_nil, if_false, debugAssert, assert]
  cases debug : (Build.isDebug : Bool) <;> rfl

/-- A column is made only for a type string that some column type has. -/
theorem makeSharedByColumnType_eq_ok [Build] {create : ColumnType → Except Fault BaseColumn}
    {type : String} {column : BaseColumn} : makeSharedByColumnType create type = .ok (some column) ↔
      ∃ T : ColumnType, T.typeString = type ∧ create T = .ok column := by
  by_cases supported : Supported type
  · obtain ⟨T, rfl⟩ := supported
    rw [makeSharedByColumnType_typeString, Except.map_eq_ok]
    constructor
    · rintro ⟨made, run, same⟩
      exact ⟨T, rfl, Option.some.inj same ▸ run⟩
    · rintro ⟨U, same, run⟩
      obtain rfl := ColumnType.typeString_injective same
      exact ⟨column, run, rfl⟩
  · rw [makeSharedByColumnType_unsupported create supported]
    refine iff_of_false ?_ fun ⟨T, same, _⟩ => supported ⟨T, same⟩
    split <;> simp

theorem supported_iff {types : List String} :
    (∀ type ∈ types, Supported type) ↔ ∃ Ts : List ColumnType, types = Ts.map ColumnType.typeString := by
  constructor
  · intro all
    obtain ⟨Ts, same⟩ := Pointwise.exists_forall₂ all
    refine ⟨Ts, ?_⟩
    have mapped := Pointwise.map_eq_map (f := fun type => type) (g := ColumnType.typeString) same
      fun _ _ equal => equal.symm
    simpa using mapped
  · rintro ⟨Ts, rfl⟩ type member
    obtain ⟨T, _, same⟩ := List.mem_map.mp member
    exact ⟨T, same⟩

end Opossum

import Opossum.Foundation.Guarded
import Opossum.Storage.BaseColumn
import Opossum.Storage.TableSteps
import Opossum.Storage.TypeResolution

/-!
# Debug builds and release builds

A release build leaves out the checks of `DebugAssert`. Whatever is called, it does what the debug build
does, unless the debug build reports a failed check.
-/

namespace Opossum

@[reducible] def Build.debug (b : Build) : Build := { b with isDebug := true }

@[reducible] def Build.release (b : Build) : Build := { b with isDebug := false }

/-- A computation in the debug build, and in the release build. -/
abbrev Build.Computes {α : Type} (b : Build) (failed : Fault → Prop) (x : [Build] → Except Fault α) : Prop :=
  Except.Guarded failed .undefined (@x b.debug) (@x b.release)

/-- A call in the debug build, and in the release build. -/
abbrev Build.Calls {σ : Type} (b : Build) (failed : Fault → Prop) (o : [Build] → Outcome Fault σ) : Prop :=
  Outcome.Guarded failed .undefined (@o b.debug) (@o b.release)

/-- A computation without a `DebugAssert` -/
abbrev ComputesPlainly {α : Type} (failed : Fault → Prop) (x : Except Fault α) : Prop :=
  Except.Guarded failed .undefined x x

/-- A call without a `DebugAssert` -/
abbrev CallsPlainly {σ : Type} (failed : Fault → Prop) (o : Outcome Fault σ) : Prop :=
  Outcome.Guarded failed .undefined o o

/-- The text of the fault begins with a place in the sources. -/
def Fault.ReportsPlace (fault : Fault) : Prop := ∃ what, fault = .logicError ("src/" ++ what)

/-- What the check in `make_unique_by_column_type` reports. -/
def unknownType (type : String) : Fault :=
  .logicError ("src/lib/resolve_type.hpp:60" ++ " " ++ ("unknown type " ++ type))

def Fault.UnknownType (fault : Fault) : Prop := ∃ type, ¬Supported type ∧ fault = unknownType type

/-- The type strings that a call hands to `make_shared_by_column_type`. -/
inductive TableCall.Resolves (t : Table) : TableCall → String → Prop
  | addColumn {name type t'} : t.Defines name type t' → Resolves t (.addColumn name type) type
  | append {values type} : type ∈ t.columnTypes → Resolves t (.append values) type
  | createNewChunk {type} : type ∈ t.columnTypes → Resolves t .createNewChunk type
  | compressChunk {id type} : type ∈ t.columnTypes → Resolves t (.compressChunk id) type

theorem not_reportsPlace {what : String} (head : what.toList.head? ≠ some 's') :
    ¬(Fault.logicError what).ReportsPlace := by
  rintro ⟨rest, same⟩
  cases same
  simp at head

theorem makeSharedByColumnType_debug {b : Build} (create : ColumnType → Except Fault BaseColumn)
    {type : String} (unsupported : ¬Supported type) : @makeSharedByColumnType b.debug create type =
    .error (unknownType type) := by
  rw [@makeSharedByColumnType_unsupported b.debug create type unsupported]
  rfl

theorem makeSharedByColumnType_release {b : Build} (create : ColumnType → Except Fault BaseColumn)
    {type : String}
    (unsupported : ¬Supported type) : @makeSharedByColumnType b.release create type = .ok none := by
  rw [@makeSharedByColumnType_unsupported b.release create type unsupported]
  rfl

section
variable {b : Build} {failed : Fault → Prop} (plain : ∀ fault, failed fault → fault.ReportsPlace)
include plain

theorem plain_logicError {what : String} (head : what.toList.head? ≠ some 's') : ¬failed (.logicError what) :=
  fun failure => not_reportsPlace head (plain _ failure)

theorem plain_of_not_logicError {fault : Fault} (other : ∀ what, fault ≠ .logicError what) :
    ¬failed fault := by
  intro failure
  obtain ⟨what, same⟩ := plain _ failure
  exact other _ same

theorem plain_assert (value : Bool) {msg : String} (head : msg.toList.head? ≠ some 's') :
    ComputesPlainly failed (assert value msg) := by
  cases value with
  | true => exact .ok
  | false => exact .error (plain_logicError plain head)

theorem plain_getColumn (chunk : Chunk) (id : Nat) : ComputesPlainly failed (chunk.getColumn id) := by
  unfold Chunk.getColumn
  split
  · exact .ok
  · exact .error (plain_of_not_logicError plain (by simp))

theorem plain_columnType (t : Table) (id : Nat) : ComputesPlainly failed (t.columnType id) := by
  unfold Table.columnType
  split
  · exact .ok
  · exact .error (plain_of_not_logicError plain (by simp))

theorem plain_getChunk (t : Table) (id : ChunkID) : ComputesPlainly failed (t.getChunk id) := by
  unfold Table.getChunk
  split
  · exact .ok
  · exact .error (plain_of_not_logicError plain (by simp))

theorem plain_lexicalCast [Build] (T : ColumnType) (value : AllTypeVariant) :
    ComputesPlainly failed (lexicalCast T value) := by
  unfold lexicalCast
  split
  · exact .ok
  · exact .error (plain_of_not_logicError plain (by simp))

theorem plain_typeCast [Build] (T : ColumnType) (value : AllTypeVariant) :
    ComputesPlainly failed (typeCast T value) := by
  have numeric (x : ColumnType.Elem .double) : ComputesPlainly failed (numericCast T x) := by
    unfold numericCast
    split
    · exact .ok
    · exact .error (plain_of_not_logicError plain (by simp))
  unfold typeCast
  split
  · exact .ok
  split
  · split
    · exact .ok
    · exact (plain_lexicalCast plain .double value).bind fun x _ => numeric x
  · exact plain_lexicalCast plain T value

/-- Appending to a column does not depend on the build. -/
theorem guards_appendToColumn (value : AllTypeVariant) (column : BaseColumn) :
    b.Calls failed (column.append value) := by
  have plainly [Build] : CallsPlainly failed (column.append value) := by
    cases column with
    | value T c =>
      rw [BaseColumn.append_value]
      exact .ofExcept _ ((plain_typeCast plain T value).map _)
    | dictionary T c => exact .stopped (plain_of_not_logicError plain (by simp))
  exact @plainly b

theorem plain_addColumnOfChunk (chunk : Chunk) (column : BaseColumn) :
    CallsPlainly failed (chunk.addColumn (some column)) := by
  unfold Chunk.addColumn
  simp only
  split
  · exact .returned
  · exact .stopped (plain_logicError plain (by decide))

/-- One round of the constructor's loop asserts the index, in every build. -/
theorem plain_storeValueID {α : Type} [LT α] [DecidableLT α] (dictionary : List α) (row : α × Nat)
    (vector : BaseAttributeVector) :
    CallsPlainly failed (DictionaryColumn.storeValueID dictionary row vector) := by
  unfold DictionaryColumn.storeValueID BaseAttributeVector.set FittedAttributeVector.set
  refine .within _ ?_
  split
  · split
    · exact .returned
    · exact .stopped (plain_of_not_logicError plain (by simp))
  · exact .stopped (plain_logicError plain (by simp))

theorem plain_fittedVector (attrSize : Nat) :
    ComputesPlainly failed (DictionaryColumn.fittedVector attrSize) := by
  have fitted (w : Nat) : ComputesPlainly failed (FittedAttributeVector.new w attrSize) := by
    unfold FittedAttributeVector.new
    split
    · exact .ok
    · exact .error (plain_logicError plain (by simp))
  unfold DictionaryColumn.fittedVector
  split
  · exact (fitted 8).map _
  split
  · exact (fitted 16).map _
  · exact (fitted 32).map _

theorem plain_newDictionaryColumn (column : BaseColumn) (T : ColumnType) :
    ComputesPlainly failed (BaseColumn.newDictionaryColumn column T) := by
  refine .map _ ?_
  unfold DictionaryColumn.new
  cases column.asValueColumn T with
  | none => exact .error (plain_logicError plain (by decide))
  | some valColumn =>
    refine .bind (plain_assert plain _ (by decide)) fun _ _ => ?_
    refine .bind (plain_assert plain _ (by decide)) fun _ _ => ?_
    refine .bind (plain_fittedVector plain _) fun vector _ => ?_
    refine .bind (Outcome.Guarded.loop (plain_storeValueID plain _) _ _).toExcept fun vector _ => .ok

/-- A column for a type string is made, and put onto a chunk. The release build dereferences a null pointer
where the debug build has reported the type string. -/
theorem guards_addNewColumn {create : ColumnType → Except Fault BaseColumn} (chunk : Chunk) (type : String)
    (created : ∀ T, ComputesPlainly failed (create T))
    (unknown : ¬Supported type → failed (unknownType type)) :
    b.Computes failed (do
      let column ← makeSharedByColumnType create type
      (chunk.addColumn column).toExcept) := by
  by_cases supported : Supported type
  · obtain ⟨T, rfl⟩ := supported
    simp only [makeSharedByColumnType_typeString]
    refine .bind ((created T).map some) fun column made => ?_
    obtain ⟨column, _, rfl⟩ := Except.map_eq_ok.mp made
    exact (plain_addColumnOfChunk plain chunk column).toExcept
  · dsimp only [Build.Computes]
    rw [makeSharedByColumnType_debug create supported, makeSharedByColumnType_release create supported]
    exact .failed (unknown supported)

namespace Table

theorem guards_instantiate {type : String} (unknown : ¬Supported type → failed (unknownType type))
    (chunk : Chunk) :
    b.Calls failed (instantiate type chunk) := by
  unfold instantiate
  by_cases supported : Supported type
  · obtain ⟨T, rfl⟩ := supported
    simp only [makeSharedByColumnType_typeString]
    exact plain_addColumnOfChunk plain chunk _
  · dsimp only [Build.Calls]
    rw [makeSharedByColumnType_debug _ supported, makeSharedByColumnType_release _ supported]
    exact .failed (unknown supported)

theorem plain_validateExistingDefinition (t : Table) (name type : String) :
    ComputesPlainly failed (t.validateExistingDefinition name type) := by
  unfold validateExistingDefinition
  simp only
  refine .bind (plain_columnType plain t _) fun existing _ => ?_
  refine .bind (plain_assert plain _ (by decide)) fun _ _ => ?_
  split
  · exact .error (plain_of_not_logicError plain (by simp))
  · exact plain_assert plain _ (by decide)

theorem plain_addColumnDefinition (t : Table) (name type : String) :
    CallsPlainly failed (t.addColumnDefinition name type) := by
  unfold addColumnDefinition
  split
  · exact .stopped (plain_logicError plain (by decide))
  · exact .returned

theorem plain_markInstantiated (t : Table) (name : String) :
    CallsPlainly failed (t.markInstantiated name) := by
  unfold markInstantiated columnIdByName
  split
  · rename_i missing
    split at missing
    · cases missing
    · cases missing
      exact .stopped (plain_of_not_logicError plain (by simp))
  · split
    · exact .returned
    · exact .stopped (plain_of_not_logicError plain (by simp))

theorem guards_addColumn {t : Table} {name type : String}
    (unknown : ∀ t', t.Defines name type t' → ¬Supported type → failed (unknownType type)) :
    b.Calls failed (t.addColumn name type) := by
  have defined : CallsPlainly failed (if t.hasDefinition name then
      Outcome.ofExcept t ((t.validateExistingDefinition name type).map fun _ => t)
    else
      t.addColumnDefinition name type) := by
    split
    · exact .ofExcept t ((plain_validateExistingDefinition plain t name type).map _)
    · exact plain_addColumnDefinition plain t name type
  refine defined.andThen fun u accepted => .andThen ?_ fun v _ => plain_markInstantiated plain v name
  have defines : ∃ t', t.Defines name type t' := by
    refine exists_defines_iff.mpr fun member => ?_
    rw [if_pos (hasDefinition_iff.mpr member), Outcome.ofExcept_eq_returned, Except.map_eq_ok] at accepted
    exact accepted.choose_spec.1
  obtain ⟨t', defines⟩ := defines
  exact (Outcome.Guarded.forEach (guards_instantiate plain (unknown t' defines)) u.chunks).within _

variable {t : Table} (unknown : ∀ type ∈ t.columnTypes, ¬Supported type → failed (unknownType type))
include unknown

theorem guards_createNewChunk : b.Calls failed t.createNewChunk := by
  have newChunk : b.Computes failed t.newChunk :=
    .foldlM (fun type member chunk => guards_addNewColumn plain chunk type (fun _ => .ok)
      (unknown type member)) _
  exact .ofExcept t (newChunk.map _)

theorem guards_append (values : List AllTypeVariant) : b.Calls failed (t.append values) := by
  have onChunk (chunk : Chunk) : b.Calls failed (chunk.append values) := by
    unfold Chunk.append
    split
    · exact (Outcome.Guarded.each (guards_appendToColumn plain) values chunk.columns).within _
    · exact .stopped (plain_logicError plain (by decide))
  refine .andThen ?_ fun u _ => ?_
  · split
    · exact guards_createNewChunk plain unknown
    · exact .returned
  · unfold onBack
    split
    · exact (onChunk _).within _
    · exact .stopped (plain_of_not_logicError plain (by simp))

theorem guards_compressChunk (id : ChunkID) : b.Calls failed (t.compressChunk id) := by
  refine .ofExcept t (.map _ ?_)
  unfold compressedChunk
  refine .bind (plain_getChunk plain t id) fun chunk _ => ?_
  refine .bind (plain_assert plain _ (by decide)) fun _ _ => ?_
  refine .bind (plain_assert plain _ (by decide)) fun _ _ => ?_
  refine .foldlM (fun i _ newChunk => ?_) _
  refine .bind (plain_getColumn plain chunk i) fun column _ => ?_
  refine .bind (plain_columnType plain t i) fun type found => ?_
  exact guards_addNewColumn plain newChunk type (plain_newDictionaryColumn plain column)
    (unknown type (List.mem_of_getElem? (columnType_eq_ok.mp found)))

end Table

end

section
variable {b : Build} {failed : Fault → Prop}

theorem TableCall.guards_run (plain : ∀ fault, failed fault → fault.ReportsPlace)
    (call : TableCall) (t : Table)
    (unknown : ∀ type, call.Resolves t type → ¬Supported type → failed (unknownType type)) :
    b.Calls failed (call.run t) := by
  cases call with
  | addColumnDefinition name type => exact Table.plain_addColumnDefinition plain t name type
  | addColumn name type =>
    exact Table.guards_addColumn plain fun t' defines => unknown type (.addColumn defines)
  | append values => exact Table.guards_append plain (fun type member => unknown type (.append member)) values
  | createNewChunk =>
    exact Table.guards_createNewChunk plain fun type member => unknown type (.createNewChunk member)
  | compressChunk id =>
    exact Table.guards_compressChunk plain (fun type member => unknown type (.compressChunk member)) id

/-- The type strings that a call hands on have been checked before, or are its own. -/
theorem TableCall.Resolves.supported {call : TableCall} {t : Table} {type : String}
    (resolves : call.Resolves t type) (stored : t.TypesResolve)
    (defines : call.DefinesSupported t) : Supported type := by
  cases resolves with
  | addColumn accepted =>
    cases accepted with
    | known _ sameType _ => exact stored _ (List.mem_of_getElem? sameType)
    | new absent => exact defines.resolve_left absent
  | append member => exact stored _ member
  | createNewChunk member => exact stored _ member
  | compressChunk member => exact stored _ member

namespace Table
variable {t left : Table} {calls : List TableCall}

/-- As long as columns are defined with supported types, the two builds are the same. -/
theorem release_run_iff_debug (stored : t.TypesResolve) :
    Run (fun t call left => call.DefinesSupported t ∧
      Caught Fault.Catchable (@TableCall.run b.release) t call left)
        t calls left ↔
      Run (fun t call left => call.DefinesSupported t ∧
        Caught Fault.Catchable (@TableCall.run b.debug) t call left)
        t calls left := by
  refine Run.iff_of_invariant TypesResolve (fun t call left stored => and_congr_right fun defines => ?_)
    (fun t call left stored step => (@typesResolve_step_iff b.release _ _ _ stored step.2).mpr step.1) stored
  have guards : b.Calls (fun _ => False) (call.run t) :=
    TableCall.guards_run nofun call t fun type resolves unsupported =>
      unsupported (resolves.supported stored defines)
  have same : @TableCall.run b.debug call t = @TableCall.run b.release call t := guards.eq_of_never nofun
  rw [Caught, Caught, same]

theorem release_run_iff_debug_append :
    Run (fun t call left => call.DefinesSupported t ∧
        Caught Fault.Catchable (@TableCall.run strictBuild.release) t call left)
      ⟨[], [], [], [⟨[]⟩], 2⟩ [.addColumn "a" "int", .append [⟨.int, (1 : Int32)⟩]]
      ⟨[true], ["a"], ["int"], [⟨[.value .int ⟨[(1 : Int32)]⟩]⟩], 2⟩ ↔
    Run (fun t call left => call.DefinesSupported t ∧
        Caught Fault.Catchable (@TableCall.run strictBuild.debug) t call left)
      ⟨[], [], [], [⟨[]⟩], 2⟩ [.addColumn "a" "int", .append [⟨.int, (1 : Int32)⟩]]
      ⟨[true], ["a"], ["int"], [⟨[.value .int ⟨[(1 : Int32)]⟩]⟩], 2⟩ :=
  release_run_iff_debug fun _ member => nomatch member

end Table

end

end Opossum

import Opossum.Operators.AbstractOperator
import Opossum.Storage.BuildModes
import Opossum.Utils.LoadTable

/-!
# Programs in debug builds and release builds

There are three `DebugAssert`s. A run of a program in a release build is a run of it in a debug build in
which none of them fails.
-/

namespace Opossum

open Decimal OStream

/-- The faults of the three checks. -/
inductive FailedCheck : Fault → Prop
  | unknownType {type} : ¬Supported type → FailedCheck (unknownType type)
  | vectorIndex : FailedCheck (.logicError
      ("src/lib/storage/fitted_attribute_vector.hpp:28" ++ " " ++ "Index out of bounds!"))
  | dictionaryIndex : FailedCheck (.logicError
      ("src/lib/storage/dictionary_column.cpp:60" ++ " " ++ "Index out of bounds!"))

theorem FailedCheck.reportsPlace (fault : Fault) (failure : FailedCheck fault) : fault.ReportsPlace := by
  cases failure with
  | @unknownType type _ =>
    refine ⟨"lib/resolve_type.hpp:60 " ++ ("unknown type " ++ type), ?_⟩
    rw [← String.append_assoc]
    rfl
  | vectorIndex => exact ⟨"lib/storage/fitted_attribute_vector.hpp:28 Index out of bounds!", rfl⟩
  | dictionaryIndex => exact ⟨"lib/storage/dictionary_column.cpp:60 Index out of bounds!", rfl⟩

variable {b : Build}

/-- A check, and what the release build does without it. -/
theorem guards_debugAssert {α : Type} {place msg : String} {value : Bool} {x : Except Fault α}
    (failure : FailedCheck (.logicError (place ++ " " ++ msg)))
    (undefined : value = false → x = .error .undefined)
    (passed : value = true → ComputesPlainly FailedCheck x) :
    b.Computes FailedCheck (debugAssert place value msg >>= fun _ => x) := by
  cases value with
  | true =>
    have nothing (b : Build) : @debugAssert b place true msg = .ok () := @debugAssert_true b place msg
    dsimp only [Build.Computes]
    rw [nothing, nothing]
    exact passed rfl
  | false =>
    rw [undefined rfl]
    exact .failed failure

theorem guards_getOfVector (vector : BaseAttributeVector) (i : Nat) :
    b.Computes FailedCheck (vector.get i) := by
  refine guards_debugAssert .vectorIndex (fun outside => ?_) fun _ => ?_
  · have absent : vector.vector.data[i]? = none :=
      List.getElem?_eq_none (Nat.le_of_not_lt (of_decide_eq_false outside))
    rw [absent]
  · split
    · exact .ok
    · exact .error (plain_of_not_logicError FailedCheck.reportsPlace (by simp))

theorem guards_getOfDictionary {α : Type} (c : DictionaryColumn α) (i : Nat) :
    b.Computes FailedCheck (c.get i) := by
  refine .bind (guards_getOfVector c.attributeVector i) fun dictID _ => ?_
  refine guards_debugAssert .dictionaryIndex (fun outside => ?_) fun _ => ?_
  · have absent : c.dictionary[dictID.toNat]? = none := List.getElem?_eq_none (by simpa using outside)
    rw [absent]
  · split
    · exact .ok
    · exact .error (plain_of_not_logicError FailedCheck.reportsPlace (by simp))

theorem guards_entry (column : BaseColumn) (i : Nat) : b.Computes FailedCheck (column.entry i) := by
  cases column with
  | value T c =>
    refine .map _ ?_
    unfold ValueColumn.entry
    split
    · exact .ok
    · exact .error (plain_of_not_logicError FailedCheck.reportsPlace (by simp))
  | dictionary T c => exact (guards_getOfDictionary c i).map _

namespace Print

theorem plain_columnName (t : Table) (id : Nat) : ComputesPlainly FailedCheck (t.columnName id) := by
  unfold Table.columnName
  split
  · exact .ok
  · exact .error (plain_of_not_logicError FailedCheck.reportsPlace (by simp))

theorem guards_columnStringWidths (inputTableLeft t : Table) (minWidth maxWidth : UInt16) :
    b.Computes FailedCheck (columnStringWidths inputTableLeft minWidth maxWidth t) := by
  refine .bind (.mapM (fun col => (plain_columnName t col).bind fun name _ => .ok) _) fun widths _ => ?_
  refine .foldlM (fun id _ widths => ?_) _
  refine .bind (plain_getChunk FailedCheck.reportsPlace inputTableLeft _) fun chunk _ => ?_
  refine .foldlM (fun col _ widths => ?_) _
  refine .foldlM (fun row _ widths => ?_) _
  refine .bind (plain_getColumn FailedCheck.reportsPlace chunk col) fun column _ => ?_
  refine .bind (guards_entry column row) fun cell _ => ?_
  refine .bind (@plain_lexicalCast _ FailedCheck.reportsPlace b .string cell) fun text _ => ?_
  split
  · exact .ok
  · exact .error (plain_of_not_logicError FailedCheck.reportsPlace (by simp))

theorem plain_printHeader (widths : List UInt16) {header : Nat → Except Fault String}
    (headers : ∀ col, ComputesPlainly FailedCheck (header col)) (col : Nat) (out : OStream) :
    CallsPlainly FailedCheck (printHeader widths header col out) := by
  unfold printHeader
  simp only
  split
  · exact .stopped (plain_of_not_logicError FailedCheck.reportsPlace (by simp))
  · split
    · rename_i missing
      exact .stopped ((headers col).passes nofun missing)
    · exact .returned

theorem guards_printCell (widths : List UInt16) (chunk : Chunk) (row col : Nat) (out : OStream) :
    b.Calls FailedCheck (printCell widths chunk row col out) := by
  have read : b.Computes FailedCheck (chunk.getColumn col >>= fun column => column.entry row) :=
    .bind (plain_getColumn FailedCheck.reportsPlace chunk col) fun column _ => guards_entry column row
  unfold printCell
  dsimp only [Build.Computes, Build.Calls] at read ⊢
  split
  · exact .stopped (plain_of_not_logicError FailedCheck.reportsPlace (by simp))
  · exact read.elim (fun cell _ => .returned) (fun fault other => .stopped other) fun fault failure =>
      .failed failure

theorem guards_printChunk (widths : List UInt16) (inputTableLeft : Table) (id : Nat) (out : OStream) :
    b.Calls FailedCheck (printChunk widths inputTableLeft id out) := by
  unfold printChunk
  simp only
  split
  · rename_i missing
    exact .stopped ((plain_getChunk FailedCheck.reportsPlace inputTableLeft _).passes nofun missing)
  split
  · exact .returned
  refine .loop (fun row out => ?_) _ _
  exact .andThen (.loop (guards_printCell widths _ row) _ _) fun out _ => .returned

theorem guards_onExecute (inputTableLeft : Table) (out : OStream) :
    b.Calls FailedCheck (onExecute inputTableLeft out) := by
  have columnTypes (col : Nat) := plain_columnType FailedCheck.reportsPlace inputTableLeft col
  have widths := guards_columnStringWidths (b := b) inputTableLeft inputTableLeft 8 20
  unfold onExecute
  dsimp only [Build.Computes, Build.Calls] at widths ⊢
  refine widths.elim (fun widths _ => ?_)
    (fun fault other => .stopped other) fun fault failure => .failed failure
  refine .andThen (.andThen (.andThen (.andThen ?_ fun _ _ => .returned) fun out _ => ?_)
    fun _ _ => .returned) fun out _ => ?_
  · exact .loop (plain_printHeader widths (plain_columnName inputTableLeft)) _ _
  · exact .loop (plain_printHeader widths columnTypes) _ _
  · exact .loop (guards_printChunk widths inputTableLeft) _ _

end Print

theorem guards_tableCall (call : TableCall) (t : Table) : b.Calls FailedCheck (call.run t) :=
  call.guards_run FailedCheck.reportsPlace t fun _ _ unsupported => .unknownType unsupported

theorem plain_managerCall (call : RegistryCall String TablePtr) (manager : StorageManager) :
    CallsPlainly FailedCheck (StorageManager.run call manager) := by
  refine .refl fun fault left stopped => ?_
  cases (StorageManager.run_eq_stopped.mp stopped).1 with
  | add => exact plain_logicError FailedCheck.reportsPlace (by simp)
  | drop => exact plain_of_not_logicError FailedCheck.reportsPlace (by simp)

namespace SharedTables

theorem guards_on (table : TablePtr) (call : TableCall) (s : SharedTables) :
    b.Calls FailedCheck (s.on table call) := by
  unfold on
  dsimp only [Build.Calls]
  split
  · exact .stopped nofun
  · split
    · exact .stopped nofun
    · exact (guards_tableCall call _).within _

theorem guards_run (call : SharedCall) (s : SharedTables) : b.Calls FailedCheck (call.run s) := by
  cases call with
  | makeTable chunkSize => exact .returned
  | onTable table call => exact guards_on table call s
  | onNamed name call =>
    unfold SharedCall.run
    dsimp only [Build.Calls]
    split
    · rename_i missing
      obtain ⟨_, rfl⟩ := StorageManager.getTable_eq_error.mp missing
      exact .stopped nofun
    · exact guards_on _ call s
  | manage call => exact (plain_managerCall call s.manager).within _

end SharedTables

namespace Program

theorem guards_execute (op : Nat) (p : Program) : b.Calls FailedCheck (p.execute op) := by
  unfold execute
  dsimp only [Build.Calls]
  split
  · exact .stopped nofun
  split
  · exact .returned
  split
  · rename_i missing
    unfold inputTableLeft at missing
    split at missing <;> cases missing
    exact .stopped nofun
  split
  · exact ((Print.guards_onExecute _ _).within _).andThen fun _ _ => .returned
  · exact .stopped nofun

theorem guards_run (call : ProgramCall) (p : Program) : b.Calls FailedCheck (call.run p) := by
  cases call with
  | shared call => exact (SharedTables.guards_run call p.shared).within _
  | openStream => exact .returned
  | makeTableWrapper table => exact .returned
  | makePrint input out => exact .returned
  | execute op => exact guards_execute op p

/-- The runs of a release build are the runs of a debug build in which no check fails: the states are the
same, and so are the calls that return and the exceptions of those that throw. -/
theorem release_run_iff {p left : Program} {answered : List (ProgramCall × Option Fault)} :
    Run (Answered Fault.Catchable (@ProgramCall.run b.release)) p answered left ↔
      Run (fun p call left => (@ProgramCall.run b.debug call.1 p).Passes FailedCheck ∧
        Answered Fault.Catchable (@ProgramCall.run b.debug) p call left) p answered left :=
  Run.unchecked_iff (fun caught => caught rfl) fun call p => guards_run call p

end Program

/-- `load_table` in the two builds: it gives the same table or none, and throws the same, but for an unknown
type. -/
theorem loadTable_release_iff (files : String → Option String) (fileName : String) (chunkSize : UInt64) :
    (∀ t, @loadTable b.release files fileName chunkSize = .ok t ↔
      @loadTable b.debug files fileName chunkSize = .ok t) ∧
      ∀ fault, fault.Catchable → (@loadTable b.release files fileName chunkSize = .error fault ↔
        @loadTable b.debug files fileName chunkSize = .error fault ∧ ¬fault.UnknownType) := by
  have reports (fault : Fault) (failure : fault.UnknownType) : fault.ReportsPlace := by
    obtain ⟨type, unsupported, rfl⟩ := failure
    exact FailedCheck.reportsPlace _ (.unknownType unsupported)
  have onTable (call : TableCall) (t : Table) : b.Calls Fault.UnknownType (call.run t) :=
    call.guards_run reports t fun type _ unsupported => ⟨type, unsupported, rfl⟩
  have loads : b.Computes Fault.UnknownType (loadTable files fileName chunkSize) := by
    unfold loadTable
    dsimp only [Build.Computes]
    split
    · exact .error (plain_logicError reports (by simp))
    refine Outcome.Guarded.toExcept (.andThen .returned fun t _ =>
      .andThen (.loop (fun i t => ?_) _ _) fun t _ => ?_)
    · unfold addNamedColumn
      split
      · exact onTable (.addColumn _ _) t
      · exact .stopped (plain_of_not_logicError reports (by simp))
    · exact .loop (fun line t => onTable (.append _) t) _ _
  exact ⟨fun t => loads.ok_iff, fun fault caught => loads.error_iff caught⟩

end Opossum

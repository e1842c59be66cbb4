import Opossum.Storage.TableRuns

/-!
# Row ids

A row is named by its chunk and its place there. Rows get their ids in ascending order and keep them, and
what can be read under an id never changes.
-/

namespace Opossum

structure RowID where
  chunkID : ChunkID
  chunkOffset : UInt32
  deriving DecidableEq

namespace RowID

/-- `operator<`, which compares the two in order -/
instance : LT RowID :=
  ⟨fun a b => a.chunkID < b.chunkID ∨ ¬b.chunkID < a.chunkID ∧ a.chunkOffset < b.chunkOffset⟩

instance : DecidableLT RowID := fun _ _ => inferInstanceAs (Decidable (_ ∨ ¬_ ∧ _))

theorem lt_iff {a b : RowID} : a < b ↔ a.chunkID.toNat < b.chunkID.toNat ∨
    a.chunkID.toNat = b.chunkID.toNat ∧ a.chunkOffset.toNat < b.chunkOffset.toNat := by
  show _ ∨ ¬_ ∧ _ ↔ _
  simp only [UInt32.lt_iff_toNat_lt]
  omega

/-- Row ids can be the keys of maps. -/
instance : TotallyOrdered RowID where
  irrefl a := by simp only [lt_iff]; omega
  trans := by simp only [lt_iff]; omega
  connected a b := by
    obtain ⟨chunkID, chunkOffset⟩ := a
    obtain ⟨chunkID', chunkOffset'⟩ := b
    simp only [lt_iff, RowID.mk.injEq, ← UInt32.toNat_inj]
    omega
  beq_iff _ _ := beq_iff_eq

end RowID

/-- `compress_chunk` may change what is read from a column whose type is not ordered, and drops columns that
the chunk does not count. -/
def TableCall.Lossless (t : Table) : TableCall → Prop
  | compressChunk id => ∀ chunk, t.getChunk id = .ok chunk →
      chunk.columns.length < 2 ^ 16 ∧ ∀ column ∈ chunk.columns, column.elementType.Ordered
  | _ => True

variable [Build]

theorem BaseColumn.lt_size_of_entry {column : BaseColumn} {r : Nat} {x : AllTypeVariant}
    (read : column.entry r = .ok x) : r < column.size := by
  cases column with
  | value T c =>
    obtain ⟨value, read, _⟩ := Except.map_eq_ok.mp read
    unfold ValueColumn.entry at read
    split at read
    · rename_i found
      exact (List.getElem?_eq_some_iff.mp found).1
    · cases read
  | dictionary T c =>
    obtain ⟨value, read, _⟩ := Except.map_eq_ok.mp read
    obtain ⟨id, read, _⟩ := Except.bind_eq_ok.mp read
    obtain ⟨_, _, read⟩ := Except.bind_eq_ok.mp read
    split at read
    · rename_i found
      exact (List.getElem?_eq_some_iff.mp found).1
    · cases read

namespace Table

/-- One entry of a row. -/
def cell (t : Table) (id : RowID) (col : Nat) : Except Fault AllTypeVariant := do
  let chunk ← t.getChunk id.chunkID
  let column ← chunk.getColumn col
  column.entry id.chunkOffset.toNat

def row (t : Table) (id : RowID) : Except Fault Row := do
  let chunk ← t.getChunk id.chunkID
  chunk.readRow id.chunkOffset.toNat

/-- The table still has its chunks, which still have their entries, and perhaps more of both. -/
def Extends (t later : Table) : Prop :=
  ∀ (k : Nat) chunk, t.chunks[k]? = some chunk → ∃ chunk', later.chunks[k]? = some chunk' ∧
    chunk.Extends chunk'

theorem Extends.refl (t : Table) : t.Extends t := fun _ chunk found => ⟨chunk, found, .refl chunk⟩

theorem Extends.trans {t u v : Table} (tu : t.Extends u) (uv : u.Extends v) : t.Extends v := by
  intro k chunk found
  obtain ⟨chunk', found', first⟩ := tu k chunk found
  obtain ⟨chunk'', found'', second⟩ := uv k chunk' found'
  exact ⟨chunk'', found'', first.trans second⟩

variable {t left : Table}

theorem Extends.cell {id : RowID} {col : Nat} {x : AllTypeVariant} (extended : t.Extends left)
    (stored : t.cell id col = .ok x) : left.cell id col = .ok x := by
  obtain ⟨chunk, atChunk, stored⟩ := Except.bind_eq_ok.mp stored
  obtain ⟨column, atColumn, stored⟩ := Except.bind_eq_ok.mp stored
  obtain ⟨chunk', atChunk', kept⟩ := extended _ chunk (getChunk_eq_ok.mp atChunk)
  obtain ⟨column', atColumn', grown⟩ := kept col column (Chunk.getColumn_eq_ok.mp atColumn)
  rw [Table.cell, getChunk_eq_ok.mpr atChunk', Except.ok_bind, Chunk.getColumn_eq_ok.mpr atColumn',
    Except.ok_bind,
    grown.entry _ (BaseColumn.lt_size_of_entry stored), stored]

theorem extends_of_forall₂ {chunks : List Chunk} (each : List.Forall₂ Chunk.Extends t.chunks chunks) :
    t.Extends { t with chunks := chunks } := by
  intro k chunk found
  exact Pointwise.getElem?_left each found

theorem extends_instantiate (type : String) (chunk : Chunk) :
    chunk.Extends (instantiate type chunk).left := by
  unfold instantiate
  split
  · rename_i column _
    cases column with
    | none => exact .refl chunk
    | some column => exact Chunk.addColumn_extends rfl rfl
  · exact .refl chunk

theorem extends_addColumn (t : Table) (name type : String) : t.Extends (t.addColumn name type).left := by
  unfold addColumn
  refine Outcome.left_andThen t.Extends ?_ fun u defined =>
    Outcome.left_andThen t.Extends ?_ fun v taken => ?_
  · split
    · rw [Outcome.left_ofExcept_const]
      exact .refl t
    · unfold addColumnDefinition
      split <;> exact .refl t
  · rw [Outcome.left_within]
    exact defined.trans (extends_of_forall₂ (Outcome.forall₂_each Chunk.Extends.refl
      (fun _ chunk => extends_instantiate type chunk) u.chunks u.chunks))
  · unfold markInstantiated
    split
    · exact taken
    · split <;> exact taken

theorem extends_createNewChunk (t : Table) : t.Extends t.createNewChunk.left := by
  unfold createNewChunk
  cases t.newChunk with
  | error fault => exact .refl t
  | ok chunk =>
    intro k old found
    exact ⟨old, List.getElem?_append_left (List.getElem?_eq_some_iff.mp found).1 ▸ found, .refl old⟩

theorem extends_onBack (t : Table) {call : Chunk → Outcome Fault Chunk}
    (kept : ∀ chunk : Chunk, chunk.Extends (call chunk).left) : t.Extends (t.onBack call).left := by
  unfold onBack
  split
  · rename_i last found
    rw [Outcome.left_within]
    obtain ⟨front, split⟩ := List.getLast?_eq_some_iff.mp found
    refine extends_of_forall₂ ?_
    rw [split, List.dropLast_concat]
    exact Pointwise.append_singleton (List.forall₂_same.mpr fun chunk _ => .refl chunk) (kept last)
  · exact .refl t

theorem extends_append (t : Table) (values : List AllTypeVariant) : t.Extends (t.append values).left := by
  refine Outcome.left_andThen t.Extends ?_ fun u opened =>
    opened.trans (extends_onBack u fun chunk => Chunk.append_extends rfl rfl)
  split
  · exact extends_createNewChunk t
  · exact .refl t

/-- One round of the loop in `compress_chunk`, whatever the columns look like. -/
theorem compressesTo_of_compressColumn {old new made : Chunk} {id : Nat}
    (run : t.compressColumn old new id = .ok made) : ∃ column column', old.columns[id]? = some column ∧
      column.CompressesTo column' ∧ made = ⟨new.columns ++ [column']⟩ := by
  obtain ⟨column, found, run⟩ := Except.bind_eq_ok.mp run
  obtain ⟨type, _, run⟩ := Except.bind_eq_ok.mp run
  obtain ⟨pointer, created, run⟩ := Except.bind_eq_ok.mp run
  have added := Outcome.toExcept_eq_ok.mp run
  cases pointer with
  | none => cases added
  | some column' =>
    obtain ⟨T, _, created⟩ := makeSharedByColumnType_eq_ok.mp created
    obtain ⟨_, compressed⟩ := BaseColumn.newDictionaryColumn_eq_ok.mp created
    exact ⟨column, column', Chunk.getColumn_eq_ok.mp found, compressed,
      (Chunk.addColumn_eq_returned.mp added).2⟩

theorem compressesTo_of_compressColumns {old : Chunk} {k : Nat} {made : Chunk}
    (run : (List.range k).foldlM (t.compressColumn old) Chunk.empty = .ok made) :
    List.Forall₂ BaseColumn.CompressesTo (old.columns.take k) made.columns := by
  induction k generalizing made with
  | zero =>
    cases run
    exact .nil
  | succ k ih =>
    rw [List.range_succ, List.foldlM_append, Except.bind_eq_ok] at run
    obtain ⟨mid, before, last⟩ := run
    simp only [List.foldlM_cons, List.foldlM_nil, bind_pure] at last
    obtain ⟨column, column', found, compressed, rfl⟩ := compressesTo_of_compressColumn last
    rw [List.take_add_one, found]
    exact Pointwise.append_singleton (ih before) compressed

theorem extends_compressChunk {id : ChunkID} (lossless : TableCall.Lossless t (.compressChunk id)) :
    t.Extends (t.compressChunk id).left := by
  cases run : t.compressChunk id with
  | stopped fault left =>
    obtain ⟨rfl, _⟩ := compressChunk_eq_stopped run
    exact .refl _
  | returned left =>
    obtain ⟨new, made, rfl⟩ := compressChunk_eq_returned.mp run
    obtain ⟨old, found, made⟩ := Except.bind_eq_ok.mp made
    obtain ⟨_, _, made⟩ := Except.bind_eq_ok.mp made
    obtain ⟨_, _, made⟩ := Except.bind_eq_ok.mp made
    obtain ⟨few, ordered⟩ := lossless old found
    have compressed := compressesTo_of_compressColumns made
    rw [Chunk.colCount_toNat, Nat.mod_eq_of_lt few, List.take_length] at compressed
    have kept : old.Extends new := by
      intro i column atI
      obtain ⟨column', atI', compresses⟩ := Pointwise.getElem?_left compressed atI
      have same := compresses.sameContent (ordered column (List.mem_of_getElem? atI))
      exact ⟨column', atI', same.sameType, same.sameSize.ge, same.entry⟩
    intro k chunk atK
    rw [Outcome.left_returned]
    by_cases here : id.toNat = k
    · subst here
      cases (getChunk_eq_ok.mp found).symm.trans atK
      exact ⟨new, List.getElem?_set_self (List.getElem?_eq_some_iff.mp atK).1, kept⟩
    · exact ⟨chunk, by rwa [List.getElem?_set_ne here], .refl chunk⟩

/-- Whichever way a call ends, what was stored can still be read. -/
theorem extends_run {call : TableCall} (lossless : call.Lossless t) : t.Extends (call.run t).left := by
  cases call with
  | addColumnDefinition name type =>
    simp only [TableCall.run, addColumnDefinition]
    split <;> exact .refl t
  | addColumn name type => exact extends_addColumn t name type
  | append values => exact extends_append t values
  | createNewChunk => exact extends_createNewChunk t
  | compressChunk id => exact extends_compressChunk lossless

/-- What can be read under a row id in some state of a table is read there in all later states, throwing calls
included, if chunks are only compressed where all columns are counted and have ordered types. -/
theorem cell_run {calls : List TableCall} {id : RowID} {col : Nat} {x : AllTypeVariant}
    (run : Run (fun t call left => call.Lossless t ∧ Caught Fault.Catchable TableCall.run t call left)
      t calls left)
    (stored : t.cell id col = .ok x) : left.cell id col = .ok x := by
  refine Extends.cell (run.invariant t.Extends (fun u call v _ before step => ?_) (.refl t)) stored
  rw [← step.2.left_eq]
  exact before.trans (extends_run step.1)

omit [Build] in
theorem cell_run_compressed :
    letI := strictBuild
    ∃ left : Table, Run (fun t call left => call.Lossless t ∧
      Caught Fault.Catchable TableCall.run t call left)
        ⟨[true], ["a"], ["int"], [⟨[.value .int ⟨[(7 : Int32)]⟩]⟩], 1⟩
        [.append [⟨.string, "seven"⟩], .compressChunk 0, .append [⟨.int, (8 : Int32)⟩]] left ∧
      left.cell ⟨0, 0⟩ 0 = .ok ⟨.int, (7 : Int32)⟩ := by
  let _ := strictBuild
  have lossless : TableCall.Lossless
      ⟨[true], ["a"], ["int"], [⟨[.value .int ⟨[(7 : Int32)]⟩]⟩, ⟨[.value .int ⟨[]⟩]⟩], 1⟩
        (.compressChunk 0) := by
    intro chunk found
    cases found
    simp [ColumnType.ordered_iff]
  obtain ⟨left, run⟩ : ∃ left : Table,
      Run (fun t call left => call.Lossless t ∧ Caught Fault.Catchable TableCall.run t call left)
        ⟨[true], ["a"], ["int"], [⟨[.value .int ⟨[(7 : Int32)]⟩]⟩], 1⟩
        [.append [⟨.string, "seven"⟩], .compressChunk 0, .append [⟨.int, (8 : Int32)⟩]] left :=
    ⟨_, .call ⟨trivial, Or.inr ⟨.badLexicalCast, by decide, rfl⟩⟩
      (.call ⟨lossless, Or.inl rfl⟩ (.single ⟨trivial, Or.inl rfl⟩))⟩
  exact ⟨left, run, cell_run run rfl⟩

end Table

/-- The row ids of the rows of a log. -/
def rowIDs (log : PartitionedLog Row) : List RowID :=
  log.positions.map fun p => ⟨UInt32.ofNat p.1, UInt32.ofNat p.2⟩

/-- All places of the log can be counted in 32 bits. -/
def Addressable (log : PartitionedLog Row) : Prop := log.segments.length < 2 ^ 32 ∧ log.rows.length < 2 ^ 32

namespace Addressable
variable {log : PartitionedLog Row}

omit [Build] in
theorem lt (addressable : Addressable log) {p : Nat × Nat} (member : p ∈ log.positions) :
    p.1 < 2 ^ 32 ∧ p.2 < 2 ^ 32 := by
  obtain ⟨segment, atSegment, inside⟩ := PartitionedLog.mem_positions.mp member
  have fits := PartitionedLog.length_le_rows (List.mem_of_getElem? atSegment)
  have counted := (List.getElem?_eq_some_iff.mp atSegment).1
  obtain ⟨few, small⟩ := addressable
  exact ⟨by omega, by omega⟩

omit [Build] in
theorem ascending (addressable : Addressable log) : (rowIDs log).Pairwise (· < ·) := by
  rw [rowIDs, List.pairwise_map]
  refine (PartitionedLog.pairwise_positionsFrom 0 log.segments).imp_of_mem fun {p q} inP inQ before => ?_
  have boundP := addressable.lt inP
  have boundQ := addressable.lt inQ
  rw [RowID.lt_iff]
  simp only [UInt32.toNat_ofNat', Nat.mod_eq_of_lt boundP.1, Nat.mod_eq_of_lt boundP.2,
    Nat.mod_eq_of_lt boundQ.1,
    Nat.mod_eq_of_lt boundQ.2]
  exact before

end Addressable

namespace Table
variable {schema : Schema} {log : PartitionedLog Row} {t : Table}

theorem Holds.row (holds : t.Holds schema log) (addressable : Addressable log) :
    List.Forall₂ (fun id row => t.row id = .ok row) (rowIDs log) log.rows := by
  rw [rowIDs, List.forall₂_map_left_iff]
  refine Pointwise.imp_mem (PartitionedLog.forall₂_positions log)
    fun p row member ⟨segment, atSegment, atRow⟩ => ?_
  obtain ⟨chunk, found, held⟩ := holds.getChunk addressable.1 atSegment
  rw [Table.row, found, Except.ok_bind, UInt32.toNat_ofNat', Nat.mod_eq_of_lt (addressable.lt member).2]
  exact held.readRow schema.types_few atRow

/-- Only the ids of rows can be read. -/
theorem Holds.mem_rowIDs (holds : t.Holds schema log) {id : RowID} {row : Row} (read : t.row id = .ok row) :
    id ∈ rowIDs log := by
  obtain ⟨chunk, found, read⟩ := Except.bind_eq_ok.mp read
  obtain ⟨segment, atSegment, held⟩ := Pointwise.getElem?_left holds.chunks (getChunk_eq_ok.mp found)
  have count : chunk.colCount.toNat = chunk.columns.length := by
    rw [Chunk.colCount_toNat, Nat.mod_eq_of_lt (held.length_columns ▸ schema.types_few)]
  have some : 0 < chunk.columns.length := held.length_columns ▸ schema.types_pos
  rw [Chunk.readRow, Except.mapM_eq_ok, count] at read
  obtain ⟨x, _, read⟩ := Pointwise.getElem?_left read (k := 0) (List.getElem?_range some)
  obtain ⟨column, atColumn, read⟩ := Except.bind_eq_ok.mp read
  have member := List.mem_of_getElem? (Chunk.getColumn_eq_ok.mp atColumn)
  have inside := held.sizes column member ▸ BaseColumn.lt_size_of_entry read
  refine List.mem_map.mpr ⟨_, PartitionedLog.mem_positions.mpr ⟨segment, atSegment, inside⟩, ?_⟩
  simp

end Table

namespace Schema
variable {schema : Schema}

/-- The rows of the log keep their ids. -/
theorem rowIDs_prefix (schema : Schema) (log : PartitionedLog Row) (calls : List TableCall) :
    rowIDs log <+: rowIDs (calls.foldl schema.logStep log) := by
  induction calls generalizing log with
  | nil => exact List.prefix_refl _
  | cons call calls ih =>
    refine List.IsPrefix.trans (List.IsPrefix.map _ ?_) (ih (schema.logStep log call))
    cases call with
    | append values =>
      simp only [logStep]
      split
      · exact PartitionedLog.positions_append
      · exact List.prefix_refl _
    | createNewChunk => exact PartitionedLog.positions_openSegment ▸ List.prefix_refl _
    | compressChunk id => exact List.prefix_refl _
    | addColumnDefinition name type => exact List.prefix_refl _
    | addColumn name type => exact List.prefix_refl _

theorem addressable_foldl {calls : List TableCall} (rowCalls : ∀ call ∈ calls, schema.RowCall call)
    (short : calls.countP TableCall.grows < 2 ^ 32 - 1) :
    Addressable (calls.foldl schema.logStep PartitionedLog.empty) := by
  have segments := schema.length_segments_foldl_le PartitionedLog.empty calls
  have rows := length_rows_foldl rowCalls
  have few := length_appended_le calls
  rw [show (PartitionedLog.empty : PartitionedLog Row).segments.length = 1 from rfl] at segments
  exact ⟨by omega, by omega⟩

theorem length_rowIDs {calls : List TableCall} (rowCalls : ∀ call ∈ calls, schema.RowCall call) :
    (rowIDs (schema.logOf calls)).length = (appended calls).length := by
  rw [← length_rows_foldl rowCalls, rowIDs, List.length_map]
  exact (PartitionedLog.forall₂_positions _).length_eq

/-- The ids after some of the calls are the first ones of the ids after all of them. -/
theorem take_rowIDs {pre calls : List TableCall} (rowCalls : ∀ call ∈ pre, schema.RowCall call)
    (isPrefix : pre <+: calls) : (rowIDs (schema.logOf calls)).take (appended pre).length = rowIDs
    (schema.logOf pre) := by
  obtain ⟨later, rfl⟩ := isPrefix
  have kept : rowIDs (schema.logOf pre) <+: rowIDs (schema.logOf (pre ++ later)) := by
    unfold logOf
    rw [List.foldl_append]
    exact schema.rowIDs_prefix _ later
  rw [← length_rowIDs rowCalls]
  exact (List.prefix_iff_eq_take.mp kept).symm

/-- In every run the appended rows get ascending row ids. After each call, exactly the ids of the rows so
far can be read, and they give these rows. -/
theorem rowIDs_run (ordered : schema.Ordered) {calls : List TableCall}
    (rowCalls : ∀ call ∈ calls, schema.RowCall call) (short : calls.countP TableCall.grows < 2 ^ 32 - 1) :
    ∃ (made : Table) (ids : List RowID), schema.create = .returned made ∧
      ids.length = (appended calls).length ∧
      ids.Pairwise (· < ·) ∧ ∀ pre, pre <+: calls → ∃ t, Run Table.Serves made pre t ∧
        (∀ (j : Nat) id values, ids[j]? = some id → (appended pre)[j]? = some values →
          t.row id = castRow schema.types values) ∧
        ∀ id, (∃ row, t.row id = .ok row) ↔ id ∈ ids.take (appended pre).length := by
  obtain ⟨made, created, holds⟩ := schema.create_holds
  refine ⟨made, rowIDs (schema.logOf calls), created, length_rowIDs rowCalls,
    (addressable_foldl rowCalls short).ascending, fun pre isPrefix => ?_⟩
  have rowCalls' (call : TableCall) (member : call ∈ pre) : schema.RowCall call :=
    rowCalls call (isPrefix.subset member)
  have grown := isPrefix.sublist.countP_le (p := TableCall.grows)
  have addressable := addressable_foldl rowCalls' (by omega)
  have few := length_appended_le pre
  obtain ⟨t, run, holdsT⟩ := exists_run ordered rowCalls' (by omega) holds
  obtain ⟨rows, cast, log⟩ := schema.rows_foldl PartitionedLog.empty rowCalls'
  rw [PartitionedLog.rows_empty, List.nil_append] at log
  have read := holdsT.row addressable
  have soFar := take_rowIDs rowCalls' isPrefix
  refine ⟨t, run, fun j id values atJ atValues => ?_, fun id => ?_⟩
  · obtain ⟨row, atRow, castAt⟩ := Pointwise.getElem?_left (Except.mapM_eq_ok.mp cast) atValues
    have atPre : (rowIDs (schema.logOf pre))[j]? = some id := by
      rw [← soFar, List.getElem?_take, if_pos (List.getElem?_eq_some_iff.mp atValues).1, atJ]
    obtain ⟨row', atRow', found⟩ := Pointwise.getElem?_left read atPre
    rw [log, atRow] at atRow'
    cases atRow'
    rw [found, castAt]
  · rw [soFar]
    constructor
    · rintro ⟨row, found⟩
      exact holdsT.mem_rowIDs found
    · intro member
      obtain ⟨row, _, found⟩ := Pointwise.mem_left read member
      exact ⟨row, found⟩

omit [Build] in
theorem rowIDs_run_two_rows :
    letI := strictBuild
    let schema : Schema := ⟨[("a", .int)], 1, by decide, by decide, by decide⟩
    let calls := [.append [⟨.int, (3 : Int32)⟩], .compressChunk 0, .append [⟨.int, (1 : Int32)⟩]]
    ∃ (made : Table) (ids : List RowID), schema.create = .returned made ∧
      ids.length = (appended calls).length ∧
      ids.Pairwise (· < ·) ∧ ∀ pre, pre <+: calls → ∃ t, Run Table.Serves made pre t ∧
        (∀ (j : Nat) id values, ids[j]? = some id → (appended pre)[j]? = some values →
          t.row id = castRow schema.types values) ∧
        ∀ id, (∃ row, t.row id = .ok row) ↔ id ∈ ids.take (appended pre).length := by
  let _ := strictBuild
  refine rowIDs_run ?_ ?_ (by decide)
  · simp [Ordered, types, ColumnType.ordered_iff]
  · simp only [List.forall_mem_cons, List.not_mem_nil]
    exact ⟨⟨[⟨.int, (3 : Int32)⟩], rfl⟩, trivial, ⟨[⟨.int, (1 : Int32)⟩], rfl⟩, by simp⟩

end Schema

end Opossum

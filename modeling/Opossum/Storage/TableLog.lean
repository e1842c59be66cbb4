import Opossum.Foundation.PartitionedLog
import Opossum.Storage.ChunkRows
import Opossum.Storage.TableSteps

/-!
# A table as a log of rows

What the chunks of a table hold is a log of rows, cut into one segment for each chunk: `Table.Holds`.
The calls on the table are calls on that log.
-/

namespace Opossum

/-- The columns that are added to a new table, and its chunk size. -/
structure Schema where
  columns : List (String × ColumnType)
  chunkSize : UInt32
  nonempty : columns ≠ []
  few : columns.length < 2 ^ 16
  distinct : (columns.map Prod.fst).Nodup

namespace Schema

def names (schema : Schema) : List String := schema.columns.map Prod.fst

def types (schema : Schema) : List ColumnType := schema.columns.map Prod.snd

def Ordered (schema : Schema) : Prop := ∀ T ∈ schema.types, T.Ordered

theorem length_types (schema : Schema) : schema.types.length = schema.columns.length := by
  simp [types]

theorem length_names (schema : Schema) : schema.names.length = schema.columns.length := by
  simp [names]

theorem types_pos (schema : Schema) : 0 < schema.types.length := by
  rw [length_types]
  exact List.length_pos_iff.mpr schema.nonempty

theorem types_few (schema : Schema) : schema.types.length < 2 ^ 16 := by
  rw [length_types]
  exact schema.few

end Schema

variable [Build]

/-- A chunk that holds a segment of a log with few rows reports the length of the segment. -/
theorem Chunk.Holds.size_of_segment {schema : Schema} {capacity : Nat} {c : Chunk} {segment : List Row}
    {log : PartitionedLog Row} (holds : c.Holds schema.types capacity segment)
    (small : log.rows.length < 2 ^ 32) (member : segment ∈ log.segments) :
    c.size.toNat = segment.length :=
  holds.size_toNat schema.types_pos schema.types_few
    ((PartitionedLog.length_le_rows member).trans_lt small)

namespace Table
variable {t : Table}

/-- A new table after it has got these columns. -/
def started (chunkSize : UInt32) (columns : List (String × ColumnType)) : Table where
  isInstantiated := List.replicate columns.length true
  columnNames := columns.map Prod.fst
  columnTypes := columns.map fun column => column.2.typeString
  chunks := [Chunk.fresh (columns.map Prod.snd)]
  chunkSize := chunkSize

theorem addColumn_started (chunkSize : UInt32) {columns : List (String × ColumnType)} {name : String}
    (T : ColumnType) (new : name ∉ columns.map Prod.fst) (few : columns.length + 1 < 2 ^ 16) :
    (started chunkSize columns).addColumn name T.typeString =
      .returned (started chunkSize (columns ++ [(name, T)])) := by
  have taken : List.Forall₂ (fun chunk chunk' => instantiate T.typeString chunk = .returned chunk')
      (started chunkSize columns).chunks [Chunk.fresh (columns.map Prod.snd ++ [T])] :=
    .cons (instantiate_fresh ..) .nil
  refine addColumn_eq_returned.mpr ⟨_, _, columns.length, .new new, taken, ?_, ?_, ?_⟩
  · refine columnIdByName_eq_ok.mpr ⟨?_, by simp [started], fun j below same => ?_⟩
    · simp only [colCount_toNat, started, List.length_append, List.length_map, List.length_singleton]
      omega
    · rw [List.getElem?_append_left (by simpa [started] using below)] at same
      exact new (List.mem_of_getElem? same)
  · simp [started]
  · simp [started, List.set_append_right, List.replicate_succ']

/-- The constructor and one `add_column` for each column of the schema. -/
def createWith (chunkSize : UInt32) (columns : List (String × ColumnType)) : Outcome Fault Table :=
  (Table.new chunkSize).andThen
    (Outcome.loop (fun column t => t.addColumn column.1 column.2.typeString) columns)

theorem addColumns_started {chunkSize : UInt32} (columns later : List (String × ColumnType))
    (distinct : ((columns ++ later).map Prod.fst).Nodup) (few : (columns ++ later).length < 2 ^ 16) :
    Outcome.loop (fun column t => t.addColumn column.1 column.2.typeString) later
      (started chunkSize columns) = .returned (started chunkSize (columns ++ later)) := by
  induction later generalizing columns with
  | nil => simp
  | cons column later ih =>
    obtain ⟨name, T⟩ := column
    have new : name ∉ columns.map Prod.fst := by
      rw [List.map_append, List.nodup_append] at distinct
      exact fun member => distinct.2.2 name member name (by simp) rfl
    have step := addColumn_started chunkSize T new
      (by simp only [List.length_append, List.length_cons] at few; omega)
    rw [Outcome.loop_cons, step, Outcome.returned_andThen, ih _ (by simpa using distinct)
      (by simpa using few), List.append_assoc, List.singleton_append]

theorem new_eq (chunkSize : UInt32) : Table.new chunkSize = .returned (started chunkSize []) :=
  createNewChunk_eq (show _ = [].map ColumnType.typeString from rfl)

/-- The table has the columns of the schema, and its chunks hold the segments of the log. -/
structure Holds (schema : Schema) (t : Table) (log : PartitionedLog Row) : Prop where
  columnNames : t.columnNames = schema.names
  columnTypes : t.columnTypes = schema.types.map ColumnType.typeString
  chunkSize : t.chunkSize = schema.chunkSize
  chunks : List.Forall₂ (Chunk.Holds schema.types schema.chunkSize.toNat) t.chunks log.segments

variable {schema : Schema} {log : PartitionedLog Row}

theorem Holds.createNewChunk (holds : t.Holds schema log) :
    ∃ left, t.createNewChunk = .returned left ∧ left.Holds schema log.openSegment :=
  ⟨_, createNewChunk_eq holds.columnTypes, holds.columnNames, holds.columnTypes, holds.chunkSize,
    Pointwise.append_singleton holds.chunks (Chunk.fresh_holds ..)⟩

theorem Holds.back (holds : t.Holds schema log) : ∃ front last, t.chunks = front ++ [last] ∧
    List.Forall₂ (Chunk.Holds schema.types schema.chunkSize.toNat) front log.closed ∧
    last.Holds schema.types schema.chunkSize.toNat log.back :=
  Pointwise.of_append_singleton_right holds.chunks

theorem Holds.isLastChunkFull (holds : t.Holds schema log) (small : log.rows.length < 2 ^ 32) :
    t.isLastChunkFull = decide (log.Full schema.chunkSize.toNat) := by
  obtain ⟨front, last, split, _, holdsLast⟩ := holds.back
  have size := holdsLast.size_of_segment small log.back_mem
  have full : last.size = schema.chunkSize ↔ log.back.length = schema.chunkSize.toNat := by
    rw [← UInt32.toNat_inj, size]
  rw [Bool.eq_iff_iff, isLastChunkFull_iff, decide_eq_true_iff, holds.chunkSize, split, List.map_append]
  simp [PartitionedLog.Full, toNat_eq_zero_iff, full]

theorem Holds.push (holds : t.Holds schema log) (room : ¬log.Full schema.chunkSize.toNat)
    {values : List AllTypeVariant} {row : Row} (cast : castRow schema.types values = .ok row) :
    ∃ left, t.onBack (fun chunk => chunk.append values) = .returned left ∧
      left.Holds schema (log.push row) := by
  obtain ⟨front, last, split, holdsFront, holdsLast⟩ := holds.back
  obtain ⟨last', run, holdsLast'⟩ := holdsLast.append room cast
  refine ⟨{ t with chunks := front ++ [last'] }, ?_, holds.columnNames, holds.columnTypes,
    holds.chunkSize, Pointwise.append_singleton holdsFront holdsLast'⟩
  simp [onBack, split, run]

theorem Holds.append (holds : t.Holds schema log) (small : log.rows.length < 2 ^ 32)
    {values : List AllTypeVariant} {row : Row} (cast : castRow schema.types values = .ok row) :
    ∃ left, t.append values = .returned left ∧
      left.Holds schema (log.append schema.chunkSize.toNat row) := by
  unfold Table.append PartitionedLog.append
  rw [holds.isLastChunkFull small]
  by_cases full : log.Full schema.chunkSize.toNat
  · obtain ⟨opened, run, holdsOpened⟩ := holds.createNewChunk
    have room : ¬log.openSegment.Full schema.chunkSize.toNat := fun again => again.1 again.2.symm
    simpa [full, run] using holdsOpened.push room cast
  · simpa [full] using holds.push full cast

theorem Holds.regular (holds : t.Holds schema log) (ordered : schema.Ordered)
    (small : log.rows.length < 2 ^ 32) : t.Regular := by
  have someTypes := schema.types_pos
  have fewTypes := schema.types_few
  have lengths : t.columnNames.length = schema.types.length := by
    rw [holds.columnNames, schema.length_names, schema.length_types]
  have sourceOf (chunk : Chunk) (member : chunk ∈ t.chunks) : ∃ rows, rows.length < 2 ^ 32 ∧
      chunk.Holds schema.types schema.chunkSize.toNat rows := by
    obtain ⟨rows, segment, held⟩ := Pointwise.mem_left holds.chunks member
    exact ⟨rows, (PartitionedLog.length_le_rows segment).trans_lt small, held⟩
  refine ⟨by omega, by omega, ?_, ?_, ?_⟩
  · intro chunk member
    obtain ⟨rows, _, held⟩ := sourceOf chunk member
    rw [held.length_columns, lengths]
  · intro chunk member
    obtain ⟨rows, bound, held⟩ := sourceOf chunk member
    refine ⟨rows.length, fun i column found => ?_, held.sizes, bound⟩
    rw [holds.columnTypes, List.getElem?_map, held.elementType found, Option.map_some]
  · intro chunk member column inside
    obtain ⟨rows, _, held⟩ := sourceOf chunk member
    exact ordered _ (held.types ▸ List.mem_map_of_mem inside)

/-- Where a chunk can be compressed, its segment is full. -/
theorem Holds.compressedChunk (holds : t.Holds schema log) (ordered : schema.Ordered)
    (small : log.rows.length < 2 ^ 32) {id : ChunkID} {new : Chunk} (made : t.compressedChunk id = .ok new) :
    { t with chunks := t.chunks.set id.toNat new }.Holds schema log := by
  obtain ⟨old, found, notInfinite, full, compressed⟩ :=
    (holds.regular ordered small).compressedChunk_eq_ok.mp made
  obtain ⟨rows, atRows, held⟩ := Pointwise.getElem?_left holds.chunks found
  have size := held.size_of_segment small (List.mem_of_getElem? atRows)
  rw [holds.chunkSize] at full notInfinite
  have finite : schema.chunkSize.toNat ≠ 0 := mt toNat_eq_zero_iff.mp notInfinite
  have fresh := held.compress ordered finite (by rw [← size, full]) compressed
  obtain ⟨inside, rfl⟩ := List.getElem?_eq_some_iff.mp atRows
  have replaced := Pointwise.set holds.chunks id.toNat fun _ => fresh
  rw [List.set_getElem_self] at replaced
  exact ⟨holds.columnNames, holds.columnTypes, holds.chunkSize, replaced⟩

/-- The chunk of a segment, by its id. -/
theorem Holds.getChunk (holds : t.Holds schema log) (few : log.segments.length < 2 ^ 32) {id : Nat}
    {segment : List Row} (atSegment : log.segments[id]? = some segment) :
    ∃ chunk, t.getChunk (UInt32.ofNat id) = .ok chunk ∧
      chunk.Holds schema.types schema.chunkSize.toNat segment := by
  obtain ⟨chunk, found, held⟩ := Pointwise.getElem?_right holds.chunks atSegment
  obtain ⟨inside, _⟩ := List.getElem?_eq_some_iff.mp atSegment
  refine ⟨chunk, getChunk_eq_ok.mpr ?_, held⟩
  rwa [UInt32.toNat_ofNat', Nat.mod_eq_of_lt (by omega)]

theorem Holds.readRows (holds : t.Holds schema log) (small : log.rows.length < 2 ^ 32)
    (few : log.segments.length < 2 ^ 32) : t.readRows = .ok log.rows := by
  have count : t.chunkCount.toNat = t.chunks.length := by
    rw [chunkCount_toNat, Nat.mod_eq_of_lt (by rwa [holds.chunks.length_eq])]
  have walk : (List.range t.chunkCount.toNat).mapM (fun id => do
      let chunk ← t.getChunk (UInt32.ofNat id)
      chunk.readRows) = .ok log.segments := by
    rw [Except.mapM_eq_ok, count]
    refine Pointwise.of_range holds.chunks.length_eq.symm fun id rows atRows => ?_
    obtain ⟨chunk, found, held⟩ := holds.getChunk few atRows
    have bound := (PartitionedLog.length_le_rows (List.mem_of_getElem? atRows)).trans_lt small
    rw [found, Except.ok_bind, held.readRows schema.types_pos schema.types_few bound]
  rw [Table.readRows, walk]
  rfl

theorem Holds.rowCount (holds : t.Holds schema log) (small : log.rows.length < 2 ^ 32) :
    t.rowCount.toNat = log.rows.length := by
  have equal := Pointwise.imp_mem (S := fun rows chunk => List.length rows = chunk.size.toNat)
    holds.chunks.flip fun rows chunk member held => (held.size_of_segment small member).symm
  have sizes := Pointwise.map_eq_map (f := List.length) (g := fun chunk => chunk.size.toNat) equal
    fun _ _ same => same
  rw [rowCount_toNat, ← sizes, ← List.length_flatten, ← PartitionedLog.rows, Nat.mod_eq_of_lt (by omega)]

end Table

namespace Schema

/-- The table of this schema, before any row. -/
def create (schema : Schema) : Outcome Fault Table :=
  Table.createWith schema.chunkSize schema.columns

theorem create_eq (schema : Schema) :
    schema.create = .returned (Table.started schema.chunkSize schema.columns) := by
  rw [create, Table.createWith, Table.new_eq, Outcome.returned_andThen,
    Table.addColumns_started [] schema.columns schema.distinct schema.few, List.nil_append]

theorem create_holds (schema : Schema) :
    ∃ made, schema.create = .returned made ∧ made.Holds schema PartitionedLog.empty :=
  ⟨_, schema.create_eq, rfl, by simp [Table.started, types], rfl, .cons (Chunk.fresh_holds ..) .nil⟩

end Schema

end Opossum

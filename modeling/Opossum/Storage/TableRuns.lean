import Opossum.Foundation.Run
import Opossum.Storage.TableLog

/-!
# Runs of a table with a fixed schema

Every run of appends, new chunks and compressions of a table is simulated by its log.
-/

namespace Opossum

/-- The call adds a row or a chunk, if it returns. -/
def TableCall.grows : TableCall → Bool
  | append _ | createNewChunk => true
  | _ => false

/-- The rows that are handed to the table. -/
def appended (calls : List TableCall) : List (List AllTypeVariant) :=
  calls.filterMap fun
    | .append values => some values
    | _ => none

variable [Build]

/-- The call returns; only `compress_chunk` may throw instead. -/
def Table.Serves (t : Table) (call : TableCall) (left : Table) : Prop :=
  call.run t = .returned left ∨
    (∃ id, call = .compressChunk id) ∧ ∃ fault, fault.Catchable ∧ call.run t = .stopped fault left

theorem Table.Serves.caught (t : Table) (call : TableCall) (left : Table) (step : t.Serves call left) :
    Caught Fault.Catchable TableCall.run t call left :=
  step.imp_right fun both => both.2

theorem Table.Serves.functional (t : Table) (call : TableCall) (one other : Table)
    (first : t.Serves call one) (second : t.Serves call other) : one = other :=
  Caught.functional _ _ _ _ (first.caught ..) (second.caught ..)

namespace Schema
variable {schema : Schema} {log : PartitionedLog Row} {t : Table}

/-- The calls on a table whose columns stay as they are, with rows that it can cast. -/
def RowCall (schema : Schema) : TableCall → Prop
  | .append values => ∃ row, castRow schema.types values = .ok row
  | .createNewChunk => True
  | .compressChunk _ => True
  | .addColumnDefinition _ _ => False
  | .addColumn _ _ => False

/-- The calls on the log. -/
def logStep (schema : Schema) (log : PartitionedLog Row) : TableCall → PartitionedLog Row
  | .append values =>
    match castRow schema.types values with
    | .ok row => log.append schema.chunkSize.toNat row
    | .error _ => log
  | .createNewChunk => log.openSegment
  | _ => log

/-- The log after these calls on a new table. -/
def logOf (schema : Schema) (calls : List TableCall) : PartitionedLog Row :=
  calls.foldl schema.logStep PartitionedLog.empty

theorem rows_foldl (schema : Schema) (log : PartitionedLog Row) {calls : List TableCall}
    (rowCalls : ∀ call ∈ calls, schema.RowCall call) :
    ∃ rows, (appended calls).mapM (castRow schema.types) = .ok rows ∧
      (calls.foldl schema.logStep log).rows = log.rows ++ rows := by
  induction calls generalizing log with
  | nil => exact ⟨[], rfl, by simp⟩
  | cons call calls ih =>
    obtain ⟨rows, cast, holds⟩ := ih (schema.logStep log call) fun c member =>
      rowCalls c (List.mem_cons_of_mem _ member)
    have rowCall := rowCalls call (List.mem_cons_self ..)
    cases call with
    | append values =>
      obtain ⟨row, castRow⟩ := rowCall
      refine ⟨row :: rows, ?_, ?_⟩
      · rw [Except.mapM_eq_ok] at cast ⊢
        exact .cons castRow cast
      · rw [List.foldl_cons, holds]
        simp [logStep, castRow]
    | createNewChunk => exact ⟨rows, cast, by rw [List.foldl_cons, holds]; simp [logStep]⟩
    | compressChunk id => exact ⟨rows, cast, by rw [List.foldl_cons, holds]; rfl⟩
    | addColumnDefinition name type => exact rowCall.elim
    | addColumn name type => exact rowCall.elim

theorem length_segments_foldl_le (schema : Schema) (log : PartitionedLog Row) (calls : List TableCall) :
    (calls.foldl schema.logStep log).segments.length ≤
      log.segments.length + calls.countP TableCall.grows := by
  induction calls generalizing log with
  | nil => simp
  | cons call calls ih =>
    have rest := ih (schema.logStep log call)
    have step : (schema.logStep log call).segments.length ≤
        log.segments.length + if call.grows then 1 else 0 := by
      cases call with
      | append values =>
        simp only [logStep, TableCall.grows, if_true]
        split
        · exact PartitionedLog.length_segments_append_le
        · omega
      | createNewChunk => exact PartitionedLog.length_segments_openSegment.le
      | compressChunk id => exact Nat.le_refl _
      | addColumnDefinition name type => exact Nat.le_refl _
      | addColumn name type => exact Nat.le_refl _
    rw [List.foldl_cons, List.countP_cons]
    omega

omit [Build] in
theorem length_appended_le (calls : List TableCall) :
    (appended calls).length ≤ calls.countP TableCall.grows := by
  induction calls with
  | nil => simp [appended]
  | cons call calls ih =>
    rw [List.countP_cons]
    cases call <;> simp only [appended, List.filterMap_cons, List.length_cons, TableCall.grows] at ih ⊢ <;>
      grind

/-- One call on the table is one call on its log. -/
theorem serves_holds (ordered : schema.Ordered) {call : TableCall} (rowCall : schema.RowCall call)
    (holds : t.Holds schema log) (small : log.rows.length < 2 ^ 32) :
    ∃ left, t.Serves call left ∧ left.Holds schema (schema.logStep log call) := by
  cases call with
  | append values =>
    obtain ⟨row, cast⟩ := rowCall
    obtain ⟨left, run, holdsLeft⟩ := holds.append small cast
    exact ⟨left, Or.inl run, by simpa [logStep, cast] using holdsLeft⟩
  | createNewChunk =>
    obtain ⟨left, run, holdsLeft⟩ := holds.createNewChunk
    exact ⟨left, Or.inl run, holdsLeft⟩
  | compressChunk id =>
    cases made : t.compressedChunk id with
    | ok new =>
      exact ⟨_, Or.inl (Table.compressChunk_eq_returned.mpr ⟨new, made, rfl⟩),
        holds.compressedChunk ordered small made⟩
    | error fault =>
      have catchable := Table.catchable_of_compressedChunk (holds.regular ordered small).shaped made
      have run : t.compressChunk id = .stopped fault t := by
        rw [Table.compressChunk, made]
        rfl
      exact ⟨t, Or.inr ⟨⟨id, rfl⟩, fault, catchable, run⟩, holds⟩
  | addColumnDefinition name type => exact rowCall.elim
  | addColumn name type => exact rowCall.elim

theorem length_rows_foldl {calls : List TableCall} (rowCalls : ∀ call ∈ calls, schema.RowCall call) :
    (calls.foldl schema.logStep PartitionedLog.empty).rows.length = (appended calls).length := by
  obtain ⟨rows, cast, holds⟩ := schema.rows_foldl PartitionedLog.empty rowCalls
  rw [holds, PartitionedLog.rows_empty, List.nil_append, (Except.mapM_eq_ok.mp cast).length_eq]

omit [Build] in
theorem appended_append (calls later : List TableCall) :
    appended (calls ++ later) = appended calls ++ appended later :=
  List.filterMap_append

/-- A table with few rows can go through every run of such calls, and its log goes along. -/
theorem exists_run (ordered : schema.Ordered) {calls : List TableCall}
    (rowCalls : ∀ call ∈ calls, schema.RowCall call) (few : (appended calls).length < 2 ^ 32)
    {made : Table} (holds : made.Holds schema PartitionedLog.empty) :
    ∃ t, Run Table.Serves made calls t ∧
      t.Holds schema (calls.foldl schema.logStep PartitionedLog.empty) := by
  refine Run.exists_simulating (fun (t : Table) log => t.Holds schema log) schema.logStep ?_ holds
  rintro pre call post t rfl before
  have length := length_rows_foldl fun c (member : c ∈ pre) =>
    rowCalls c (List.mem_append_left _ member)
  rw [appended_append, List.length_append] at few
  rw [List.foldl_append]
  exact serves_holds ordered (rowCalls call (by simp)) before (by omega)

/-- A table refines the list of its rows: every append returns, new chunks and compressions, whether
they succeed or throw, change no row, and after every call the rows read back are the cast rows of
the appends so far. -/
theorem readRows_run (ordered : schema.Ordered) {calls : List TableCall}
    (rowCalls : ∀ call ∈ calls, schema.RowCall call)
    (short : calls.countP TableCall.grows < 2 ^ 32 - 1) :
    ∃ made, schema.create = .returned made ∧ ∀ pre, pre <+: calls → ∃ t rows,
      Run Table.Serves made pre t ∧ (appended pre).mapM (castRow schema.types) = .ok rows ∧
      t.readRows = .ok rows ∧ t.rowCount.toNat = rows.length := by
  obtain ⟨made, created, holds⟩ := schema.create_holds
  refine ⟨made, created, fun pre isPrefix => ?_⟩
  have rowCalls' (call : TableCall) (member : call ∈ pre) : schema.RowCall call :=
    rowCalls call (isPrefix.subset member)
  have grown := isPrefix.sublist.countP_le (p := TableCall.grows)
  have few := length_appended_le pre
  obtain ⟨t, run, holdsT⟩ := exists_run ordered rowCalls' (by omega) holds
  obtain ⟨rows, cast, log⟩ := schema.rows_foldl PartitionedLog.empty rowCalls'
  have length := length_rows_foldl rowCalls'
  have segments := schema.length_segments_foldl_le PartitionedLog.empty pre
  rw [show (PartitionedLog.empty : PartitionedLog Row).segments.length = 1 from rfl] at segments
  have read := holdsT.readRows (by omega) (by omega)
  have count := holdsT.rowCount (by omega)
  rw [log, PartitionedLog.rows_empty, List.nil_append] at read count
  exact ⟨t, rows, run, cast, read, count⟩

omit [Build] in
theorem readRows_run_compressed :
    letI := strictBuild
    let schema : Schema := ⟨[("a", .int)], 2, by decide, by decide, by decide⟩
    let calls := [.append [⟨.int, (3 : Int32)⟩], .append [⟨.int, (1 : Int32)⟩], .append [⟨.int, (3 : Int32)⟩],
      .compressChunk 0, .createNewChunk, .append [⟨.int, (5 : Int32)⟩], .compressChunk 7]
    Run (Returning TableCall.run) (Table.started 2 schema.columns) (calls.take 6)
        ⟨[true], ["a"], ["int"],
          [⟨[.dictionary .int ⟨[(1 : Int32), (3 : Int32)], ⟨⟨([1, 0] : List (BitVec 8))⟩⟩⟩]⟩,
            ⟨[.value .int ⟨[(3 : Int32)]⟩]⟩, ⟨[.value .int ⟨[(5 : Int32)]⟩]⟩], 2⟩ ∧
      ∃ made, schema.create = .returned made ∧ ∀ pre, pre <+: calls → ∃ t rows,
        Run Table.Serves made pre t ∧ (appended pre).mapM (castRow schema.types) = .ok rows ∧
        t.readRows = .ok rows ∧ t.rowCount.toNat = rows.length := by
  let _ := strictBuild
  refine ⟨.call rfl <| .call rfl <| .call rfl <| .call rfl <| .call rfl <| .call rfl .start,
    readRows_run ?_ ?_ (by decide)⟩
  · simp [Ordered, types, ColumnType.ordered_iff]
  · simp only [List.forall_mem_cons, List.not_mem_nil]
    exact ⟨⟨[⟨.int, (3 : Int32)⟩], rfl⟩, ⟨[⟨.int, (1 : Int32)⟩], rfl⟩, ⟨[⟨.int, (3 : Int32)⟩], rfl⟩, trivial,
      trivial, ⟨[⟨.int, (5 : Int32)⟩], rfl⟩, trivial, by simp⟩

theorem packed_foldl (schema : Schema) {calls : List TableCall}
    (noNew : ∀ call ∈ calls, call ≠ .createNewChunk) (packed : log.Packed schema.chunkSize.toNat) :
    (calls.foldl schema.logStep log).Packed schema.chunkSize.toNat := by
  induction calls generalizing log with
  | nil => exact packed
  | cons call calls ih =>
    refine ih (fun c member => noNew c (List.mem_cons_of_mem _ member)) ?_
    cases call with
    | append values =>
      simp only [logStep]
      split
      · exact packed.append
      · exact packed
    | createNewChunk => exact absurd rfl (noNew _ (List.mem_cons_self ..))
    | compressChunk id => exact packed
    | addColumnDefinition name type => exact packed
    | addColumn name type => exact packed

end Schema

namespace Table
variable {schema : Schema} {log : PartitionedLog Row} {t : Table}

/-- What the table gives back for the values of one append. -/
def RowAt (t : Table) (types : List ColumnType) (id offset : Nat) (values : List AllTypeVariant) : Prop :=
  ∃ chunk, t.getChunk (UInt32.ofNat id) = .ok chunk ∧ chunk.readRow offset = castRow types values

theorem Holds.rowAt (holds : t.Holds schema log) (few : log.segments.length < 2 ^ 32) {id offset : Nat}
    {values : List AllTypeVariant} {row : Row} {segment : List Row}
    (cast : castRow schema.types values = .ok row) (atSegment : log.segments[id]? = some segment)
    (atRow : segment[offset]? = some row) : t.RowAt schema.types id offset values := by
  obtain ⟨chunk, found, held⟩ := holds.getChunk few atSegment
  refine ⟨chunk, found, ?_⟩
  rw [held.readRow schema.types_few atRow, cast]

theorem Holds.chunkCount_toNat (holds : t.Holds schema log) (few : log.segments.length < 2 ^ 32) :
    t.chunkCount.toNat = log.segments.length := by
  rw [Table.chunkCount_toNat, holds.chunks.length_eq, Nat.mod_eq_of_lt few]

/-- A chunk is as long as its segment, and so is each of its columns. -/
theorem Holds.chunkSize_eq (holds : t.Holds schema log) (small : log.rows.length < 2 ^ 32) {id : ChunkID}
    {chunk : Chunk} (found : t.getChunk id = .ok chunk) :
    ∃ segment, log.segments[id.toNat]? = some segment ∧ chunk.size.toNat = segment.length ∧
      chunk.Rectangular := by
  obtain ⟨segment, atSegment, held⟩ := Pointwise.getElem?_left holds.chunks (getChunk_eq_ok.mp found)
  have size := held.size_of_segment small (List.mem_of_getElem? atSegment)
  exact ⟨segment, atSegment, size, fun column member => (held.sizes column member).trans size.symm⟩

/-- Without `create_new_chunk`, the appends alone decide where every row goes. For a chunk size `n`
other than `0`, row `j` is at offset `j % n` of chunk `j / n`, and all chunks but the last are full. -/
theorem partition_run (ordered : schema.Ordered) {calls : List TableCall}
    (rowCalls : ∀ call ∈ calls, schema.RowCall call ∧ call ≠ .createNewChunk)
    (few : (appended calls).length < 2 ^ 32) :
    ∃ made t, schema.create = .returned made ∧ Run Table.Serves made calls t ∧
      (0 < schema.chunkSize.toNat →
        t.chunkCount.toNat = max 1
          (((appended calls).length + schema.chunkSize.toNat - 1) / schema.chunkSize.toNat) ∧
        (∀ id chunk, t.getChunk id = .ok chunk → chunk.Rectangular ∧
          chunk.size.toNat ≤ schema.chunkSize.toNat ∧
          (id.toNat + 1 < t.chunkCount.toNat → chunk.size = schema.chunkSize)) ∧
        ∀ (j : Nat) values, (appended calls)[j]? = some values →
          t.RowAt schema.types (j / schema.chunkSize.toNat) (j % schema.chunkSize.toNat) values) ∧
      (schema.chunkSize.toNat = 0 →
        t.chunkCount.toNat = 1 ∧
        ∀ (j : Nat) values, (appended calls)[j]? = some values → t.RowAt schema.types 0 j values) := by
  obtain ⟨made, created, holds⟩ := schema.create_holds
  have castable (call : TableCall) (member : call ∈ calls) := (rowCalls call member).1
  obtain ⟨t, run, holdsT⟩ := Schema.exists_run ordered castable few holds
  obtain ⟨rows, cast, log⟩ := schema.rows_foldl PartitionedLog.empty castable
  have packed := schema.packed_foldl (fun call member => (rowCalls call member).2)
    PartitionedLog.Packed.empty
  have length := Schema.length_rows_foldl castable
  have segments := packed.length_segments_le
  rw [PartitionedLog.rows_empty, List.nil_append] at log
  have rowOf {j : Nat} {values : List AllTypeVariant} (atValues : (appended calls)[j]? = some values) :
      ∃ row, castRow schema.types values = .ok row ∧ rows[j]? = some row := by
    obtain ⟨row, atRow, castAt⟩ := Pointwise.getElem?_left (Except.mapM_eq_ok.mp cast) atValues
    exact ⟨row, castAt, atRow⟩
  have unlimited (infinite : schema.chunkSize.toNat = 0) :
      (calls.foldl schema.logStep PartitionedLog.empty).segments = [rows] := by
    rw [infinite] at packed
    rw [packed.segments_eq, log]
  refine ⟨made, t, created, run, fun finite => ⟨?_, ?_, ?_⟩, fun infinite => ⟨?_, ?_⟩⟩
  · rw [holdsT.chunkCount_toNat (by omega), packed.length_segments_eq finite, length]
  · intro id chunk found
    obtain ⟨segment, atSegment, size, rectangular⟩ := holdsT.chunkSize_eq (by omega) found
    obtain ⟨below, full⟩ := packed.length_segment finite atSegment
    refine ⟨rectangular, size ▸ below, fun before => UInt32.toNat_inj.mp ?_⟩
    rw [size]
    exact full (by rwa [holdsT.chunkCount_toNat (by omega)] at before)
  · intro j values atValues
    obtain ⟨row, castAt, atRow⟩ := rowOf atValues
    obtain ⟨segment, atSegment, atOffset⟩ := packed.getElem?_rows finite (log ▸ atRow)
    exact holdsT.rowAt (by omega) castAt atSegment atOffset
  · rw [holdsT.chunkCount_toNat (by omega), unlimited infinite]
    rfl
  · intro j values atValues
    obtain ⟨row, castAt, atRow⟩ := rowOf atValues
    exact holdsT.rowAt (by omega) castAt (by rw [unlimited infinite]; rfl) atRow

omit [Build] in
theorem partition_run_two_rows :
    letI := strictBuild
    let schema : Schema := ⟨[("a", .int)], 1, by decide, by decide, by decide⟩
    let calls := [.append [⟨.int, (3 : Int32)⟩], .compressChunk 0, .append [⟨.int, (1 : Int32)⟩]]
    ∃ made t, schema.create = .returned made ∧ Run Table.Serves made calls t ∧ t.chunkCount.toNat = 2 ∧
      t.RowAt schema.types 1 0 [⟨.int, (1 : Int32)⟩] := by
  let _ := strictBuild
  intro schema calls
  have rowCalls : ∀ call ∈ calls, schema.RowCall call ∧ call ≠ .createNewChunk := by
    simp only [calls, List.forall_mem_cons, List.not_mem_nil]
    exact ⟨⟨⟨[⟨.int, (3 : Int32)⟩], rfl⟩, by simp⟩, ⟨trivial, by simp⟩,
      ⟨⟨[⟨.int, (1 : Int32)⟩], rfl⟩, by simp⟩, by simp⟩
  obtain ⟨made, t, created, run, finite, _⟩ :=
    partition_run (by simp [schema, Schema.Ordered, Schema.types, ColumnType.ordered_iff]) rowCalls
      (by decide)
  rw [show schema.chunkSize.toNat = 1 from rfl] at finite
  obtain ⟨count, _, rows⟩ := finite (by decide)
  exact ⟨made, t, created, run, count.trans (by decide), by simpa using rows 1 _ rfl⟩

end Table

end Opossum

import Opossum.Foundation.OStream
import Opossum.Foundation.TextTable
import Opossum.NumberCasts
import Opossum.Operators.Print
import Opossum.Storage.TableRuns

/-!
# What `Print` writes

The operator writes a table of text: the schema, and then the rows chunk by chunk. It depends on the rows that
are read from the table and on nothing else.
-/

namespace Opossum

open Decimal OStream

variable [Build]

namespace Print

/-- One round of a loop over the columns in the header. -/
def printHeader (widths : List UInt16) (header : Nat → Except Fault String) (col : Nat) (out : OStream) :
    Outcome Fault OStream :=
  let out := out.put ['|']
  match widths[col]? with
  | none => .stopped .undefined out
  | some width =>
    let out := out.setw width.toNat
    match header col with
    | .error fault => .stopped fault out
    | .ok text => .returned ((out.put text.toList).setw 0)

/-- One round of the loop over the columns in a row. -/
def printCell (widths : List UInt16) (chunk : Chunk) (row col : Nat) (out : OStream) :
    Outcome Fault OStream :=
  match widths[col]? with
  | none => .stopped .undefined out
  | some width =>
    let out := out.setw width.toNat
    match chunk.getColumn col >>= fun column => column.entry row with
    | .error fault => .stopped fault out
    | .ok cell => .returned (((out.put cell.text).put ['|']).setw 0)

/-- One round of the loop over the rows of a chunk. -/
def printRow (widths : List UInt16) (chunk : Chunk) (row : Nat) (out : OStream) : Outcome Fault OStream :=
  (Outcome.loop (printCell widths chunk row) (List.range chunk.colCount.toNat) (out.put ['|'])).andThen
    fun out => .returned out.endl

/-- One round of the loop over the chunks. -/
def printChunk (widths : List UInt16) (inputTableLeft : Table) (id : Nat) (out : OStream) :
    Outcome Fault OStream :=
  match inputTableLeft.getChunk (UInt32.ofNat id) with
  | .error fault => .stopped fault out
  | .ok chunk =>
    let out := (((out.put "=== Chunk ".toList).put (digits id)).put " === ".toList).endl
    if chunk.size = 0 then
      .returned (out.put "Empty chunk.".toList).endl
    else
      Outcome.loop (printRow widths chunk) (List.range chunk.size.toNat) out

/-- `Print::_on_execute`. It returns its input table. -/
def onExecute (inputTableLeft : Table) (out : OStream) : Outcome Fault OStream :=
  match columnStringWidths inputTableLeft 8 20 inputTableLeft with
  | .error fault => .stopped fault out
  | .ok widths =>
    let columns := List.range inputTableLeft.colCount.toNat
    let endLine (out : OStream) : Outcome Fault OStream := .returned ((out.put ['|']).endl)
    ((((Outcome.loop (printHeader widths inputTableLeft.columnName) columns
      (out.put "=== Columns".toList).endl).andThen endLine).andThen
      (Outcome.loop (printHeader widths inputTableLeft.columnType) columns)).andThen endLine).andThen
      (Outcome.loop (printChunk widths inputTableLeft) (List.range inputTableLeft.chunkCount.toNat))

/-- boost converts a variant to the text that a stream with its default settings writes. -/
def TextCasts : Prop := ∀ cell, printed cell = .ok (String.ofList cell.text)

/-- The texts in a column of these rows. -/
def columnTexts (rows : List Row) (col : Nat) : List (List Char) :=
  rows.filterMap fun row => row[col]?.map AllTypeVariant.text

/-- The lengths that `column_string_widths` takes the maximum of are cut to 16 bits. -/
def columnWidth (name : String) (texts : List (List Char)) : Nat :=
  (texts.map fun text => min 20 (text.length % 2 ^ 16)).foldr max (max 8 (name.length % 2 ^ 16))

def columnWidths (names : List String) (rows : List Row) : List Nat :=
  names.zipIdx.map fun column => columnWidth column.1 (columnTexts rows column.2)

/-- The lines for a chunk with these rows. -/
def chunkLines (widths : List Nat) (rows : List Row) (id : Nat) : List String :=
  String.ofList ("=== Chunk ".toList ++ digits id ++ " === ".toList) ::
    if rows = [] then ["Empty chunk."]
    else rows.map fun row => TextTable.line '|' ' ' widths (row.map AllTypeVariant.text)

/-- The lines for a table whose chunks hold these rows. -/
def tableLines (names types : List String) (segments : List (List Row)) : List String :=
  let widths := columnWidths names segments.flatten
  let header (texts : List String) := TextTable.line '|' ' ' widths (texts.map String.toList)
  "=== Columns" :: header names :: header types ::
    segments.zipIdx.flatMap fun segment => chunkLines widths segment.1 segment.2

omit [Build] in
theorem toList_line (widths : List UInt16) (texts : List (List Char)) :
    (TextTable.line '|' ' ' (widths.map UInt16.toNat) texts).toList =
      TextTable.barred '|' ((widths.zip texts).map fun cell => cell.2.leftpad cell.1.toNat ' ') := by
  rw [TextTable.line, String.toList_ofList, List.zipWith_map_left, List.zip, List.map_zipWith]

omit [Build] in
/-- A loop over the header of a table, and the end of its line. -/
theorem printHeaders_writes {widths : List UInt16} {header : Nat → Except Fault String} {texts : List String}
    (length : widths.length = texts.length)
    (headers : ∀ (col : Nat) text, texts[col]? = some text → header col = .ok text) :
    Writes (fun out => (Outcome.loop (printHeader widths header) (List.range texts.length) out).andThen
        fun out => .returned (out.put ['|']).endl)
      ((TextTable.line '|' ' ' (widths.map UInt16.toNat) (texts.map String.toList)).toList ++ ['\n']) := by
  have cells : Writes (Outcome.loop (printHeader widths header) (List.range (widths.zip texts).length))
      ((widths.zip texts).flatMap fun cell => '|' :: cell.2.toList.leftpad cell.1.toNat ' ') := by
    refine Writes.loop_range _ fun col cell atCol written => ?_
    obtain ⟨atWidth, atText⟩ := List.getElem?_zip_eq_some.mp atCol
    simp [printHeader, atWidth, headers col cell.2 atText]
  have lastBar : Writes (fun out => (.returned (out.put ['|']).endl : Outcome Fault OStream)) ['|', '\n'] :=
    fun written => by simp
  have count : (widths.zip texts).length = texts.length := by simp [length]
  rw [count] at cells
  convert cells.andThen lastBar using 1
  rw [toList_line, TextTable.barred_eq_append, List.zip_map_right, List.map_map, List.flatMap_map]
  simp

theorem printCell_writes {widths : List UInt16} {chunk : Chunk} {row col : Nat} {width : UInt16}
    {column : BaseColumn} {cell : AllTypeVariant} (atWidth : widths[col]? = some width)
    (atColumn : chunk.columns[col]? = some column) (read : column.entry row = .ok cell) :
    Writes (printCell widths chunk row col) (cell.text.leftpad width.toNat ' ' ++ ['|']) := by
  intro written
  simp [printCell, atWidth, Chunk.getColumn_eq_ok.mpr atColumn, Except.ok_bind, read]

/-- A row is put between a bar and the end of the line. -/
theorem printRow_writes_of_loop {widths : List UInt16} {chunk : Chunk} {row : Nat} {text : List Char}
    (fields : Writes (Outcome.loop (printCell widths chunk row) (List.range chunk.colCount.toNat)) text) :
    Writes (printRow widths chunk row) ('|' :: text ++ ['\n']) := by
  intro written
  have loop := fields (written ++ ['|'])
  simp [printRow, loop]

/-- The loop over a row, and the end of its line. -/
theorem printRow_writes {widths : List UInt16} {chunk : Chunk} {row : Nat} {cells : Row}
    (length : widths.length = cells.length) (count : chunk.colCount.toNat = cells.length)
    (entries : List.Forall₂ (fun column cell => column.entry row = .ok cell) chunk.columns cells) :
    Writes (printRow widths chunk row)
      ((TextTable.line '|' ' ' (widths.map UInt16.toNat) (cells.map AllTypeVariant.text)).toList ++
        ['\n']) := by
  have fields : Writes (Outcome.loop (printCell widths chunk row) (List.range (widths.zip cells).length))
      ((widths.zip cells).flatMap fun cell => cell.2.text.leftpad cell.1.toNat ' ' ++ ['|']) := by
    refine Writes.loop_range _ fun col cell atCol => ?_
    obtain ⟨atWidth, atCell⟩ := List.getElem?_zip_eq_some.mp atCol
    obtain ⟨column, atColumn, read⟩ := Pointwise.getElem?_right entries atCell
    exact printCell_writes atWidth atColumn read
  have columns : (widths.zip cells).length = chunk.colCount.toNat := by simp [count, length]
  rw [columns] at fields
  convert printRow_writes_of_loop fields using 1
  rw [toList_line, TextTable.barred, List.zip_map_right, List.map_map, List.flatMap_map]
  simp

/-- What is written for a chunk is put behind its headline. -/
theorem printChunk_writes_of_body {widths : List UInt16} {t : Table} {id : Nat} {chunk : Chunk}
    {text : List Char} (found : t.getChunk (UInt32.ofNat id) = .ok chunk)
    (body : Writes (fun out => if chunk.size = 0 then .returned (out.put "Empty chunk.".toList).endl
      else Outcome.loop (printRow widths chunk) (List.range chunk.size.toNat) out) text) :
    Writes (printChunk widths t id)
      ("=== Chunk ".toList ++ digits id ++ " === ".toList ++ ['\n'] ++ text) := by
  have headline : Writes (fun out => (.returned
      (((out.put "=== Chunk ".toList).put (digits id)).put " === ".toList).endl : Outcome Fault OStream))
      ("=== Chunk ".toList ++ digits id ++ " === ".toList ++ ['\n']) :=
    fun written => by simp
  convert headline.andThen body using 1
  funext out
  simp only [printChunk, found, Outcome.returned_andThen]

end Print

/-- What a chunk gives to be read: its rows, each in columns of the same number. -/
structure Chunk.Shows (columns : Nat) (c : Chunk) (rows : List Row) : Prop where
  columns : c.columns.length = columns
  sizes : ∀ column ∈ c.columns, column.size = rows.length
  size : c.size.toNat = rows.length
  entries : ∀ (r : Nat) row, rows[r]? = some row →
    List.Forall₂ (fun column cell => column.entry r = .ok cell) c.columns row

/-- What a table gives to be read: the rows of each chunk. -/
structure Table.Shows (t : Table) (segments : List (List Row)) : Prop where
  types : t.columnTypes.length = t.columnNames.length
  few : t.columnNames.length < 2 ^ 16
  fewChunks : t.chunks.length < 2 ^ 32
  chunks : List.Forall₂ (Chunk.Shows t.columnNames.length) t.chunks segments

theorem Table.Holds.shows {schema : Schema} {t : Table} {log : PartitionedLog Row}
    (holds : t.Holds schema log) (small : log.rows.length < 2 ^ 32)
    (few : log.segments.length < 2 ^ 32) : t.Shows log.segments := by
  have names : t.columnNames.length = schema.types.length := by
    rw [holds.columnNames, schema.length_names, schema.length_types]
  refine ⟨by rw [holds.columnTypes, List.length_map, names], names ▸ schema.types_few,
    holds.chunks.length_eq ▸ few, ?_⟩
  refine (Pointwise.imp_mem (S := fun rows chunk => Chunk.Shows t.columnNames.length chunk rows)
    holds.chunks.flip fun rows chunk member held => ?_).flip
  exact ⟨held.length_columns.trans names.symm, held.sizes, held.size_of_segment small member, held.entries⟩

namespace Print
variable {t : Table} {segments : List (List Row)} {widths : List UInt16}

theorem printChunk_writes {columns id : Nat} {chunk : Chunk} {rows : List Row}
    (shows : chunk.Shows columns rows) (found : t.getChunk (UInt32.ofNat id) = .ok chunk)
    (few : columns < 2 ^ 16) (length : widths.length = columns) :
    Writes (printChunk widths t id)
      (IStream.text '\n' (chunkLines (widths.map UInt16.toNat) rows id) true) := by
  have body : Writes (fun out => if chunk.size = 0 then .returned (out.put "Empty chunk.".toList).endl
      else Outcome.loop (printRow widths chunk) (List.range chunk.size.toNat) out)
      (IStream.text '\n' (if rows = [] then ["Empty chunk."]
        else rows.map fun row => TextTable.line '|' ' ' (widths.map UInt16.toNat)
          (row.map AllTypeVariant.text)) true) := by
    by_cases none : rows = []
    · have empty : chunk.size = 0 := toNat_eq_zero_iff.mp (by rw [shows.size, none, List.length_nil])
      intro written
      simp [none, empty, IStream.text]
    · have some : chunk.size ≠ 0 := fun empty =>
        none (List.length_eq_zero_iff.mp (by rw [← shows.size, empty]; rfl))
      have count : chunk.colCount.toNat = columns := by
        rw [Chunk.colCount_toNat, shows.columns, Nat.mod_eq_of_lt few]
      simp only [if_neg none, if_neg some, shows.size, IStream.text_true, List.flatMap_map]
      refine Writes.loop_range _ fun r row atRow => ?_
      have entries := shows.entries r row atRow
      have width := entries.length_eq
      rw [shows.columns] at width
      exact printRow_writes (by omega) (by omega) entries
  convert printChunk_writes_of_body found body using 1
  rw [chunkLines, IStream.text_true, List.flatMap_cons, ← IStream.text_true, String.toList_ofList]

theorem printable (casts : TextCasts) (shows : t.Shows segments) : Printable t := by
  have count : t.colCount.toNat = t.columnNames.length := by rw [t.colCount_toNat, Nat.mod_eq_of_lt shows.few]
  have sourceOf {chunk : Chunk} (member : chunk ∈ t.chunks) :
      ∃ rows, chunk.Shows t.columnNames.length rows := by
    obtain ⟨rows, _, shown⟩ := Pointwise.mem_left shows.chunks member
    exact ⟨rows, shown⟩
  refine ⟨fun chunk member => ?_, fun chunk member => ?_, fun chunk member column inside row before => ?_⟩
  · obtain ⟨rows, shown⟩ := sourceOf member
    rw [shown.columns, count]
  · obtain ⟨rows, shown⟩ := sourceOf member
    exact ⟨rows.length, shown.sizes⟩
  · obtain ⟨rows, shown⟩ := sourceOf member
    rw [shown.sizes column inside] at before
    obtain ⟨cell, _, read⟩ :=
      Pointwise.mem_left (shown.entries row _ (List.getElem?_eq_getElem before)) inside
    exact ⟨cell, _, read, casts cell⟩

omit [Build] in
theorem mem_columnTexts {rows : List Row} {col : Nat} {chars : List Char} :
    chars ∈ columnTexts rows col ↔ ∃ row ∈ rows, ∃ cell, row[col]? = some cell ∧ cell.text = chars := by
  simp [columnTexts]

/-- The loops come to the cells of all rows. -/
theorem visits_iff (casts : TextCasts) (shows : t.Shows segments) {col : Nat} {text : String} :
    Visits t col text ↔ ∃ chars ∈ columnTexts segments.flatten col, text = String.ofList chars := by
  have count : t.chunkCount.toNat = t.chunks.length := by
    rw [t.chunkCount_toNat, Nat.mod_eq_of_lt shows.fewChunks]
  constructor
  · rintro ⟨id, chunk, row, _, atId, before, column, cell, atCol, read, prints⟩
    obtain ⟨rows, atRows, shown⟩ := Pointwise.getElem?_left shows.chunks atId
    rw [shown.size] at before
    have atRow := List.getElem?_eq_getElem before
    obtain ⟨cell', atCell, read'⟩ := Pointwise.getElem?_left (shown.entries row _ atRow) atCol
    obtain rfl := Except.ok.inj (read.symm.trans read')
    refine ⟨cell.text, mem_columnTexts.mpr ⟨rows[row], ?_, cell, atCell, rfl⟩, ?_⟩
    · exact List.mem_flatten.mpr ⟨rows, List.mem_of_getElem? atRows, List.getElem_mem before⟩
    · exact Except.ok.inj (prints.symm.trans (casts cell))
  · rintro ⟨chars, member, rfl⟩
    obtain ⟨cells, inRows, cell, atCell, rfl⟩ := mem_columnTexts.mp member
    obtain ⟨rows, inSegments, inSegment⟩ := List.mem_flatten.mp inRows
    obtain ⟨id, atRows⟩ := List.mem_iff_getElem?.mp inSegments
    obtain ⟨row, atRow⟩ := List.mem_iff_getElem?.mp inSegment
    obtain ⟨chunk, atId, shown⟩ := Pointwise.getElem?_right shows.chunks atRows
    obtain ⟨column, atCol, read⟩ := Pointwise.getElem?_right (shown.entries row cells atRow) atCell
    obtain ⟨here, _⟩ := List.getElem?_eq_some_iff.mp atId
    obtain ⟨before, _⟩ := List.getElem?_eq_some_iff.mp atRow
    exact ⟨id, chunk, row, by omega, atId, by rwa [shown.size], column, cell, atCol, read, casts cell⟩

theorem columnStringWidths_eq (casts : TextCasts) (shows : t.Shows segments) :
    ∃ widths, columnStringWidths t 8 20 t = .ok widths ∧
      widths.map UInt16.toNat = columnWidths t.columnNames segments.flatten := by
  obtain ⟨widths, run, length, bounds⟩ := columnStringWidths_bounds (printable casts shows) 8 20
  have count : t.colCount.toNat = t.columnNames.length := by rw [t.colCount_toNat, Nat.mod_eq_of_lt shows.few]
  refine ⟨widths, run, List.ext_getElem? fun col => ?_⟩
  rw [List.getElem?_map, columnWidths, List.getElem?_map, List.getElem?_zipIdx]
  by_cases inside : col < t.columnNames.length
  · have atCol := List.getElem?_eq_getElem (l := widths) (i := col) (by omega)
    have atName := List.getElem?_eq_getElem inside
    have exactly := bounds col _ _ atCol atName
    simp only [visits_iff casts shows] at exactly
    rw [atCol, atName, Option.map_some, Option.map_some, Option.map_some, Nat.zero_add]
    refine congrArg some (Nat.le_antisymm ((exactly _).mpr ?_) (foldr_max_le_iff.mpr ?_))
    · obtain ⟨least, fits⟩ := foldr_max_le_iff.mp (le_refl (columnWidth t.columnNames[col]
        (columnTexts segments.flatten col)))
      refine ⟨least, ?_⟩
      rintro _ ⟨chars, member, rfl⟩
      have fit := fits _ (List.mem_map_of_mem member)
      rwa [cellWidth, String.length_ofList]
    · obtain ⟨least, fits⟩ := (exactly _).mp le_rfl
      refine ⟨least, fun n member => ?_⟩
      obtain ⟨chars, inTexts, rfl⟩ := List.mem_map.mp member
      have fit := fits _ ⟨chars, inTexts, rfl⟩
      rwa [cellWidth, String.length_ofList] at fit
  · rw [List.getElem?_eq_none (by omega), List.getElem?_eq_none (by omega)]
    rfl

/-- The two lines of the schema are put behind a headline, and the chunks behind them. -/
theorem onExecute_writes_of_parts {names types chunks : List Char}
    (widthsOf : columnStringWidths t 8 20 t = .ok widths)
    (namesWritten : Writes (fun out => (Outcome.loop (printHeader widths t.columnName)
      (List.range t.colCount.toNat)
      out).andThen fun out => .returned (out.put ['|']).endl) names)
    (typesWritten : Writes (fun out => (Outcome.loop (printHeader widths t.columnType)
      (List.range t.colCount.toNat)
      out).andThen fun out => .returned (out.put ['|']).endl) types)
    (chunksWritten : Writes (Outcome.loop (printChunk widths t) (List.range t.chunkCount.toNat)) chunks) :
    Writes (onExecute t) ("=== Columns".toList ++ ['\n'] ++ names ++ types ++ chunks) := by
  have start : Writes (fun out => (.returned (out.put "=== Columns".toList).endl : Outcome Fault OStream))
      ("=== Columns".toList ++ ['\n']) := fun written => by simp
  convert ((start.andThen namesWritten).andThen typesWritten).andThen chunksWritten using 1
  funext out
  simp only [onExecute, widthsOf, Outcome.andThen_assoc, Outcome.returned_andThen]

/-- What the operator writes is made of the schema and the rows of the table. -/
theorem onExecute_writes (casts : TextCasts) (shows : t.Shows segments) : Writes (onExecute t)
    (IStream.text '\n' (tableLines t.columnNames t.columnTypes segments) true) := by
  obtain ⟨widths, run, same⟩ := columnStringWidths_eq casts shows
  have length : widths.length = t.columnNames.length := by
    rw [← List.length_map (f := UInt16.toNat), same, columnWidths, List.length_map, List.length_zipIdx]
  have columns : t.colCount.toNat = t.columnNames.length := by
    rw [t.colCount_toNat, Nat.mod_eq_of_lt shows.few]
  have count : t.chunkCount.toNat = segments.zipIdx.length := by
    rw [t.chunkCount_toNat, Nat.mod_eq_of_lt shows.fewChunks, shows.chunks.length_eq, List.length_zipIdx]
  have nameAt (col : Nat) (name : String) (atCol : t.columnNames[col]? = some name) :
      t.columnName col = .ok name := by
    rw [Table.columnName, atCol]
  have typeAt (col : Nat) (type : String) (atCol : t.columnTypes[col]? = some type) :
      t.columnType col = .ok type :=
    Table.columnType_eq_ok.mpr atCol
  have names := printHeaders_writes length nameAt
  have types := printHeaders_writes (length.trans shows.types.symm) typeAt
  rw [← columns] at names
  rw [shows.types, ← columns] at types
  have chunks : Writes (Outcome.loop (printChunk widths t) (List.range segments.zipIdx.length))
      (segments.zipIdx.flatMap fun segment =>
        IStream.text '\n' (chunkLines (widths.map UInt16.toNat) segment.1 segment.2) true) := by
    refine Writes.loop_range _ fun id segment atId => ?_
    obtain ⟨rows, atRows, rfl⟩ := Option.map_eq_some_iff.mp (List.getElem?_zipIdx ▸ atId)
    obtain ⟨chunk, found, shown⟩ := Pointwise.getElem?_right shows.chunks atRows
    obtain ⟨here, _⟩ := List.getElem?_eq_some_iff.mp found
    have few := shows.fewChunks
    rw [Nat.zero_add]
    refine printChunk_writes shown (Table.getChunk_eq_ok.mpr ?_) shows.few length
    rwa [UInt32.toNat_ofNat', Nat.mod_eq_of_lt (by omega)]
  rw [← count] at chunks
  convert onExecute_writes_of_parts run names types chunks using 1
  rw [tableLines, IStream.text_true]
  simp only [List.flatMap_cons, List.flatMap_assoc, ← IStream.text_true, same, List.append_assoc]

end Print

end Opossum

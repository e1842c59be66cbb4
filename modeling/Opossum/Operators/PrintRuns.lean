import Opossum.Operators.PrintTable
import Opossum.Utils.LoadTable

/-!
# Printing during a run

Whatever calls a table has served, printing it shows the rows of the appends. Neither compression nor the
padding of the fields hides any of them.
-/

namespace Opossum

open Decimal OStream

variable [Build]

namespace Schema
variable {schema : Schema}

/-- A new table serves all these calls, and then gives the rows of its log to be read. -/
theorem exists_run_shows (ordered : schema.Ordered) {calls : List TableCall}
    (rowCalls : ∀ call ∈ calls, schema.RowCall call) (short : calls.countP TableCall.grows < 2 ^ 32 - 1) :
    ∃ t, Run Table.Serves (Table.started schema.chunkSize schema.columns) calls t ∧
      t.Holds schema (schema.logOf calls) ∧ t.Shows (schema.logOf calls).segments := by
  obtain ⟨made, created, holds⟩ := schema.create_holds
  cases schema.create_eq.symm.trans created
  have few := length_appended_le calls
  obtain ⟨t, run, holdsT⟩ := exists_run ordered rowCalls (by omega) holds
  have length := length_rows_foldl rowCalls
  have segments := schema.length_segments_foldl_le PartitionedLog.empty calls
  rw [show (PartitionedLog.empty : PartitionedLog Row).segments.length = 1 from rfl] at segments
  exact ⟨t, run, holdsT, holdsT.shows (by omega) (by omega)⟩

/-- The lines that `Print` writes for the log of these calls. -/
def printed (schema : Schema) (calls : List TableCall) : List String :=
  Print.tableLines schema.names (schema.types.map ColumnType.typeString) (schema.logOf calls).segments

/-- `Print` writes these lines for every table that holds the log of the calls. -/
theorem printed_of_shows (casts : Print.TextCasts) {calls : List TableCall} {t : Table}
    (holds : t.Holds schema (schema.logOf calls)) (shows : t.Shows (schema.logOf calls).segments) :
    Writes (Print.onExecute t) (IStream.text '\n' (schema.printed calls) true) := by
  rw [printed, ← holds.columnNames, ← holds.columnTypes]
  exact Print.onExecute_writes casts shows

theorem exists_run_printed (casts : Print.TextCasts) (ordered : schema.Ordered) {calls : List TableCall}
    (rowCalls : ∀ call ∈ calls, schema.RowCall call) (short : calls.countP TableCall.grows < 2 ^ 32 - 1) :
    ∃ t, Run Table.Serves (Table.started schema.chunkSize schema.columns) calls t ∧
      Writes (Print.onExecute t) (IStream.text '\n' (schema.printed calls) true) := by
  obtain ⟨t, run, holds, shows⟩ := exists_run_shows ordered rowCalls short
  exact ⟨t, run, printed_of_shows casts holds shows⟩

end Schema

namespace Print

/-- A text that cannot be taken for a bar, a line end or padding. -/
structure PlainText (text : List Char) : Prop where
  noBar : '|' ∉ text
  noNewline : '\n' ∉ text
  flush : text.head? ≠ some ' '

omit [Build] in
theorem plainText_of_forall {text : List Char} (each : ∀ c ∈ text, c ≠ '|' ∧ c ≠ '\n' ∧ c ≠ ' ') :
    PlainText text :=
  ⟨fun member => (each _ member).1 rfl, fun member => (each _ member).2.1 rfl,
    fun first => (each _ (List.mem_of_mem_head? first)).2.2 rfl⟩

omit [Build] in
theorem plain_of_all {text : List Char} (all : text.all (fun c => c != '|' && c != '\n' && c != ' ') = true) :
    ∀ c ∈ text, c ≠ '|' ∧ c ≠ '\n' ∧ c ≠ ' ' := by
  intro c member
  simpa [and_assoc] using List.all_eq_true.mp all c member

omit [Build] in
theorem plain_of_isDigit {c : Char} (digit : c.isDigit = true) : c ≠ '|' ∧ c ≠ '\n' ∧ c ≠ ' ' := by
  refine ⟨?_, ?_, ?_⟩
  · rintro rfl
    exact absurd digit (by decide)
  · rintro rfl
    exact absurd digit (by decide)
  · rintro rfl
    exact absurd digit (by decide)

omit [Build] in
theorem plainText_integer (z : Int) : PlainText (integer z) := by
  refine plainText_of_forall fun c member => ?_
  rcases mem_signed member with rfl | digit
  · decide
  · exact plain_of_isDigit (isDigit_of_mem_digits digit)

omit [Build] in
theorem plainText_floatText {e m : Nat} (x : BinaryFloat e m) : PlainText (floatText x) := by
  refine plainText_of_forall fun c member => ?_
  have names (text : List Char) (plain : ∀ c ∈ text, c ≠ '|' ∧ c ≠ '\n' ∧ c ≠ ' ')
      (member : c ∈ signed x.negative text) : c ≠ '|' ∧ c ≠ '\n' ∧ c ≠ ' ' := by
    rcases mem_signed member with rfl | inText
    · decide
    · exact plain c inText
  unfold floatText at member
  split at member
  · exact names _ (plain_of_all rfl) member
  split at member
  · refine names _ (fun c member => ?_) member
    rcases mem_general member with digit | other
    · exact plain_of_isDigit digit
    · simp only [List.mem_cons, List.not_mem_nil, or_false] at other
      rcases other with rfl | rfl | rfl | rfl <;> decide
  · exact names _ (plain_of_all rfl) member

omit [Build] in
/-- Only strings can hold a bar, a newline or a blank in front. -/
theorem plainText_text {cell : AllTypeVariant} (number : cell.which ≠ .string) : PlainText cell.text := by
  obtain ⟨T, x⟩ := cell
  cases T with
  | int => exact plainText_integer _
  | long => exact plainText_integer _
  | float => exact plainText_floatText (e := 8) (m := 23) x
  | double => exact plainText_floatText (e := 11) (m := 52) x
  | string => exact absurd rfl number

omit [Build] in
theorem plainText_typeString (T : ColumnType) : PlainText T.typeString.toList := by
  refine plainText_of_forall ?_
  cases T <;> exact plain_of_all rfl

def beginsWithBar (line : String) : Bool := line.toList.head? = some '|'

/-- The texts in a printed table: the fields of the lines that begin with a bar. -/
def tableTexts (output : List Char) : List (List (List Char)) :=
  ((IStream.getlines '\n' (.ofString (String.ofList output)) "").filter beginsWithBar).map
    fun line => ((split id line '|').drop 1).map fun field => TextTable.unpadded ' ' field.toList

variable {names types : List String} {segments : List (List Row)}

omit [Build] in
theorem beginsWithBar_line (widths : List Nat) (texts : List (List Char)) :
    beginsWithBar (TextTable.line '|' ' ' widths texts) = true := by
  rw [beginsWithBar, TextTable.line, String.toList_ofList]
  rfl

omit [Build] in
theorem filter_chunkLines (widths : List Nat) (rows : List Row) (id : Nat) :
    (chunkLines widths rows id).filter beginsWithBar =
      rows.map fun row => TextTable.line '|' ' ' widths (row.map AllTypeVariant.text) := by
  have headline : ¬beginsWithBar (String.ofList ("=== Chunk ".toList ++ digits id ++ " === ".toList)) =
      true := by
    rw [beginsWithBar, String.toList_ofList, List.append_assoc]
    simp
  rw [chunkLines, List.filter_cons_of_neg headline]
  split
  · rename_i none
    rw [none]
    rfl
  · refine List.filter_eq_self.mpr fun line member => ?_
    obtain ⟨row, _, rfl⟩ := List.mem_map.mp member
    exact beginsWithBar_line ..

omit [Build] in
/-- The lines between bars are the names, the types and the rows. -/
theorem filter_tableLines : (tableLines names types segments).filter beginsWithBar =
    (names.map String.toList :: types.map String.toList ::
      segments.flatten.map fun row => row.map AllTypeVariant.text).map
        (TextTable.line '|' ' ' (columnWidths names segments.flatten)) := by
  have title : ¬beginsWithBar "=== Columns" = true := by decide
  have chunks (lines : List Row → List String) :
      segments.zipIdx.flatMap (fun segment => lines segment.1) = segments.flatMap lines := by
    conv_rhs => rw [← List.zipIdx_map_fst 0 segments, List.flatMap_map]
  rw [tableLines, List.filter_cons_of_neg title, List.filter_cons_of_pos (beginsWithBar_line ..),
    List.filter_cons_of_pos (beginsWithBar_line ..), List.filter_flatMap]
  simp only [filter_chunkLines, chunks, List.map_cons, List.map_flatten, List.map_map, List.flatMap_def,
    Function.comp_def]

omit [Build] in
theorem newline_free {widths : List Nat} {texts : List (List Char)} (plain : ∀ text ∈ texts, PlainText text) :
    '\n' ∉ (TextTable.line '|' ' ' widths texts).toList := by
  intro member
  rcases TextTable.mem_line member with bar | pad | ⟨text, inTexts, inText⟩
  · exact absurd bar (by decide)
  · exact absurd pad (by decide)
  · exact (plain text inTexts).noNewline inText

omit [Build] in
theorem newline_free_tableLines (plainNames : ∀ name ∈ names, PlainText name.toList)
    (plainTypes : ∀ type ∈ types, PlainText type.toList)
    (plainCells : ∀ row ∈ segments.flatten, ∀ cell ∈ row, PlainText cell.text) :
    ∀ line ∈ tableLines names types segments, '\n' ∉ line.toList := by
  intro line member
  rw [tableLines, List.mem_cons, List.mem_cons, List.mem_cons, List.mem_flatMap] at member
  rcases member with rfl | rfl | rfl | ⟨segment, inSegments, inChunk⟩
  · decide
  · exact newline_free (by simpa using plainNames)
  · exact newline_free (by simpa using plainTypes)
  · have rows := List.mem_of_getElem? (List.mk_mem_zipIdx_iff_getElem?.mp inSegments)
    rcases List.mem_cons.mp inChunk with rfl | inRows
    · rw [String.toList_ofList]
      intro member
      rcases List.mem_append.mp member with front | back
      · rcases List.mem_append.mp front with title | id
        · exact absurd title (by decide)
        · exact (plain_of_isDigit (isDigit_of_mem_digits id)).2.1 rfl
      · exact absurd back (by decide)
    · split at inRows
      · rw [List.mem_singleton.mp inRows]
        decide
      · obtain ⟨row, inSegment, rfl⟩ := List.mem_map.mp inRows
        refine newline_free fun text inRow => ?_
        obtain ⟨cell, inCells, rfl⟩ := List.mem_map.mp inRow
        exact plainCells row (List.mem_flatten.mpr ⟨_, rows, inSegment⟩) cell inCells

omit [Build] in
/-- Reading the printed lines gives back the names, the types and the rows. -/
theorem tableTexts_tableLines (sameTypes : types.length = names.length)
    (sameCells : ∀ row ∈ segments.flatten, row.length = names.length)
    (plainNames : ∀ name ∈ names, PlainText name.toList) (plainTypes : ∀ type ∈ types, PlainText type.toList)
    (plainCells : ∀ row ∈ segments.flatten, ∀ cell ∈ row, PlainText cell.text) :
    tableTexts (IStream.text '\n' (tableLines names types segments) true) =
      names.map String.toList :: types.map String.toList ::
        segments.flatten.map fun row => row.map AllTypeVariant.text := by
  have lines : IStream.getlines '\n' (.ofString (String.ofList
      (IStream.text '\n' (tableLines names types segments) true))) "" = tableLines names types segments := by
    rw [IStream.ofString, String.toList_ofList]
    exact IStream.getlines_text "" (newline_free_tableLines plainNames plainTypes plainCells) (Or.inl rfl)
  have read (texts : List (List Char)) (length : texts.length = names.length)
      (plain : ∀ text ∈ texts, PlainText text) :
      ((split id (TextTable.line '|' ' ' (columnWidths names segments.flatten) texts) '|').drop 1).map
        (fun field => TextTable.unpadded ' ' field.toList) = texts := by
    rw [split, List.map_id]
    refine TextTable.getlines_line ?_ (fun text member => (plain text member).noBar)
      (fun text member => (plain text member).flush) (by decide) ""
    rw [length, columnWidths, List.length_map, List.length_zipIdx]
  rw [tableTexts, lines, filter_tableLines, List.map_map]
  refine (List.map_congr_left fun texts member => ?_).trans (List.map_id _)
  rw [List.mem_cons, List.mem_cons, List.mem_map] at member
  rcases member with rfl | rfl | ⟨row, inRows, rfl⟩
  · exact read _ (by simp) (by simpa using plainNames)
  · exact read _ (by simpa using sameTypes) (by simpa using plainTypes)
  · exact read _ (by simpa using sameCells row inRows) (by simpa using plainCells row inRows)

end Print

namespace Print
variable {names types : List String} {segments : List (List Row)}

/-- All lines between bars are as long as each other. -/
def Aligned (lines : List String) : Prop :=
  ∃ n, ∀ line ∈ lines, beginsWithBar line = true → line.length = n

end Print

/-- A debug build whose conversions read no numbers and write every cell. -/
@[reducible] def streamBuild : Build :=
  ⟨true, fun
    | .string, cell => some (String.ofList cell.text)
    | _, _ => none, fun _ _ => none⟩

omit [Build] in
theorem textCasts_streamBuild : letI := streamBuild; Print.TextCasts := fun _ => rfl

namespace Schema
variable {schema : Schema} {calls : List TableCall}

/-- Printing shows the log: after every prefix of a run, `Print` returns and has written the lines of the
calls so far, and compressions do not show in them. -/
theorem print_run (casts : Print.TextCasts) (ordered : schema.Ordered)
    (rowCalls : ∀ call ∈ calls, schema.RowCall call) (short : calls.countP TableCall.grows < 2 ^ 32 - 1) :
    ∃ made, schema.create = .returned made ∧ ∀ pre, pre <+: calls → ∃ t, Run Table.Serves made pre t ∧
      ∀ written, Print.onExecute t ⟨written, 0⟩ =
        .returned ⟨written ++ IStream.text '\n' (schema.printed pre) true, 0⟩ := by
  refine ⟨_, schema.create_eq, fun pre isPrefix => ?_⟩
  have grown := isPrefix.sublist.countP_le (p := TableCall.grows)
  exact exists_run_printed casts ordered (fun call member => rowCalls call (isPrefix.subset member))
    (by omega)

omit [Build] in
theorem print_run_two_rows :
    letI := streamBuild
    let schema : Schema := ⟨[("a", .int)], 2, by decide, by decide, by decide⟩
    let calls := [.append [⟨.int, (3 : Int32)⟩], .compressChunk 0, .append [⟨.int, (-1 : Int32)⟩]]
    ∃ made t, schema.create = .returned made ∧ Run Table.Serves made (calls.take 2) t ∧
      Print.onExecute t ⟨[], 0⟩ = .returned
        ⟨"=== Columns\n|       a|\n|     int|\n=== Chunk 0 === \n|       3|\n".toList, 0⟩ := by
  let _ := streamBuild
  intro schema calls
  have rowCalls : ∀ call ∈ calls, schema.RowCall call := by
    simp only [calls, List.forall_mem_cons, List.not_mem_nil]
    exact ⟨⟨[⟨.int, (3 : Int32)⟩], rfl⟩, trivial, ⟨[⟨.int, (-1 : Int32)⟩], rfl⟩, by simp⟩
  obtain ⟨made, created, prints⟩ := print_run textCasts_streamBuild
    (by simp [schema, Schema.Ordered, Schema.types, ColumnType.ordered_iff]) rowCalls (by decide)
  obtain ⟨t, run, writes⟩ := prints (calls.take 2) (List.take_prefix ..)
  exact ⟨made, t, created, run, (writes []).trans (by decide +kernel)⟩

/-- The calls that write rows or open chunks. -/
def uncompressed (calls : List TableCall) : List TableCall :=
  calls.filter fun
    | .compressChunk _ => false
    | _ => true

theorem logOf_uncompressed (calls : List TableCall) :
    schema.logOf (uncompressed calls) = schema.logOf calls := by
  unfold logOf
  generalize PartitionedLog.empty = log
  induction calls generalizing log with
  | nil => rfl
  | cons call calls ih =>
    cases call <;> exact ih _

/-- Two runs that differ in their compressions only leave tables that are printed alike. -/
theorem print_ignores_compression (casts : Print.TextCasts) (ordered : schema.Ordered)
    {other : List TableCall} (rowCalls : ∀ call ∈ calls, schema.RowCall call)
    (rowCalls' : ∀ call ∈ other, schema.RowCall call) (short : calls.countP TableCall.grows < 2 ^ 32 - 1)
    (short' : other.countP TableCall.grows < 2 ^ 32 - 1)
    (same : uncompressed calls = uncompressed other) :
    ∃ made t u, schema.create = .returned made ∧ Run Table.Serves made calls t ∧
      Run Table.Serves made other u ∧
      ∀ written, Print.onExecute t ⟨written, 0⟩ = Print.onExecute u ⟨written, 0⟩ := by
  obtain ⟨t, run, writes⟩ := exists_run_printed casts ordered rowCalls short
  obtain ⟨u, run', writes'⟩ := exists_run_printed casts ordered rowCalls' short'
  have alike : schema.printed calls = schema.printed other := by
    rw [printed, printed, ← logOf_uncompressed calls, ← logOf_uncompressed other, same]
  refine ⟨_, t, u, schema.create_eq, run, run', fun written => ?_⟩
  rw [writes, writes', alike]

omit [Build] in
theorem print_ignores_compression_two_rows :
    letI := streamBuild
    let schema : Schema := ⟨[("a", .int)], 2, by decide, by decide, by decide⟩
    let calls := [.append [⟨.int, (3 : Int32)⟩], .append [⟨.int, (-1 : Int32)⟩]]
    ∃ made t u, schema.create = .returned made ∧ Run Table.Serves made (calls ++ [.compressChunk 0]) t ∧
      Run Table.Serves made calls u ∧
      ∀ written, Print.onExecute t ⟨written, 0⟩ = Print.onExecute u ⟨written, 0⟩ := by
  let _ := streamBuild
  intro schema calls
  have rowCalls : ∀ call ∈ calls ++ [.compressChunk 0], schema.RowCall call := by
    simp only [calls, List.cons_append, List.nil_append, List.forall_mem_cons, List.not_mem_nil]
    exact ⟨⟨[⟨.int, (3 : Int32)⟩], rfl⟩, ⟨[⟨.int, (-1 : Int32)⟩], rfl⟩, trivial, by simp⟩
  exact print_ignores_compression textCasts_streamBuild
    (by simp [schema, Schema.Ordered, Schema.types, ColumnType.ordered_iff]) rowCalls
    (fun call member => rowCalls call (List.mem_append_left _ member)) (by decide) (by decide) rfl

theorem length_castRow {types : List ColumnType} {values : List AllTypeVariant} {row : Row}
    (cast : castRow types values = .ok row) : row.length = types.length := by
  obtain ⟨length, cells⟩ := castRow_eq_ok.mp cast
  have count := cells.length_eq
  rw [List.length_zip, length, Nat.min_self] at count
  exact count.symm

/-- The rows in the log are the cast rows, each with one cell for each column. -/
theorem rows_logOf (rowCalls : ∀ call ∈ calls, schema.RowCall call) {rows : List Row}
    (cast : (appended calls).mapM (castRow schema.types) = .ok rows) :
    (schema.logOf calls).rows = rows ∧ ∀ row ∈ rows, row.length = schema.names.length := by
  obtain ⟨rows', cast', log⟩ := schema.rows_foldl PartitionedLog.empty rowCalls
  obtain rfl := Except.ok.inj (cast.symm.trans cast')
  refine ⟨by rw [logOf, log, PartitionedLog.rows_empty, List.nil_append], fun row member => ?_⟩
  obtain ⟨values, _, made⟩ := Pointwise.mem_right (Except.mapM_eq_ok.mp cast) member
  rw [length_castRow made, length_types, length_names]

/-- The printed lines, cut at their bars, give back the schema and every row, if no name and no string holds
a bar or a newline or begins with a blank. -/
theorem tableTexts_run (casts : Print.TextCasts) (ordered : schema.Ordered)
    (rowCalls : ∀ call ∈ calls, schema.RowCall call) (short : calls.countP TableCall.grows < 2 ^ 32 - 1)
    {rows : List Row} (cast : (appended calls).mapM (castRow schema.types) = .ok rows)
    (plainNames : ∀ name ∈ schema.names, Print.PlainText name.toList)
    (plainCells : ∀ row ∈ rows, ∀ cell ∈ row, cell.which = .string → Print.PlainText cell.text) :
    ∃ made t written, schema.create = .returned made ∧ Run Table.Serves made calls t ∧
      Print.onExecute t ⟨[], 0⟩ = .returned ⟨written, 0⟩ ∧
      Print.tableTexts written = schema.names.map String.toList ::
        schema.types.map (fun T => T.typeString.toList) :: rows.map fun row =>
          row.map AllTypeVariant.text := by
  obtain ⟨t, run, writes⟩ := exists_run_printed casts ordered rowCalls short
  obtain ⟨log, lengths⟩ := rows_logOf rowCalls cast
  refine ⟨_, t, _, schema.create_eq, run, writes [], ?_⟩
  rw [List.nil_append, printed, Print.tableTexts_tableLines, ← PartitionedLog.rows, log, List.map_map]
  · rfl
  · rw [List.length_map, length_types, length_names]
  · rwa [← PartitionedLog.rows, log]
  · exact plainNames
  · intro type member
    obtain ⟨T, _, rfl⟩ := List.mem_map.mp member
    exact Print.plainText_typeString T
  · rw [← PartitionedLog.rows, log]
    intro row inRows cell inRow
    by_cases text : cell.which = .string
    · exact plainCells row inRows cell inRow text
    · exact Print.plainText_text text

omit [Build] in
theorem tableTexts_run_one_row :
    letI := streamBuild
    let schema : Schema := ⟨[("a", .int), ("b", .string)], 1, by decide, by decide, by decide⟩
    ∃ made t written, schema.create = .returned made ∧
      Run Table.Serves made [.append [⟨.int, (3 : Int32)⟩, ⟨.string, "x y"⟩], .compressChunk 0] t ∧
      Print.onExecute t ⟨[], 0⟩ = .returned ⟨written, 0⟩ ∧ Print.tableTexts written =
        [[['a'], ['b']], ["int".toList, "string".toList], [['3'], ['x', ' ', 'y']]] := by
  let _ := streamBuild
  intro schema
  have rowCalls : ∀ call ∈ [.append [⟨.int, (3 : Int32)⟩, ⟨.string, "x y"⟩], .compressChunk 0],
      schema.RowCall call := by
    simp only [List.forall_mem_cons, List.not_mem_nil]
    exact ⟨⟨[⟨.int, (3 : Int32)⟩, ⟨.string, "x y"⟩], rfl⟩, trivial, by simp⟩
  have names : ∀ name ∈ schema.names, Print.PlainText name.toList := by
    simp only [show schema.names = ["a", "b"] from rfl, List.forall_mem_cons, List.not_mem_nil]
    exact ⟨⟨by decide, by decide, by decide⟩, ⟨by decide, by decide, by decide⟩, by simp⟩
  have cells : ∀ row ∈ [[⟨.int, (3 : Int32)⟩, ⟨.string, "x y"⟩]], ∀ cell : AllTypeVariant, cell ∈ row →
      cell.which = .string → Print.PlainText cell.text := by
    simp only [List.forall_mem_cons, List.not_mem_nil]
    exact ⟨⟨fun number => (nomatch number), fun _ => ⟨by decide, by decide, by decide⟩, by simp⟩, by simp⟩
  exact tableTexts_run textCasts_streamBuild
    (by simp [schema, Schema.Ordered, Schema.types, ColumnType.ordered_iff]) rowCalls
    (by decide) rfl names cells

end Schema

end Opossum

import Opossum.Operators.PrintRuns

/-!
# Printing a loaded file

`Print` shows the fields of the file, as far as they are written the way in which their values are written.
-/

namespace Opossum

open Decimal OStream

variable [Build] {schema : Schema} {files : String → Option String} {fileName : String} {final : Bool}

/-- A cell of a string column has the text of its token. -/
theorem text_of_castTo {T : ColumnType} {token : String} {cell : AllTypeVariant}
    (cast : castTo T (ofString token) = .ok cell) (text : cell.which = .string) :
    cell.text = token.toList := by
  obtain ⟨x, made, rfl⟩ := Except.map_eq_ok.mp cast
  obtain rfl : T = .string := text
  cases made
  rfl

/-- The cells of a parsed row can be read back from between the bars, if no token begins with a blank. -/
theorem plainText_of_parseRow {types : List ColumnType} {row : List String} {values : Row}
    (valid : Tokens row) (flush : ∀ token ∈ row, token.toList.head? ≠ some ' ')
    (parse : parseRow types row = .ok values) :
    ∀ cell ∈ values, Print.PlainText cell.text := by
  intro cell member
  obtain ⟨⟨T, value⟩, inZip, cast⟩ := Pointwise.mem_right (castRow_eq_ok.mp parse).2 member
  obtain ⟨token, inRow, rfl⟩ := List.mem_map.mp (List.of_mem_zip inZip).2
  by_cases text : cell.which = .string
  · rw [text_of_castTo cast text]
    exact ⟨(valid.free token inRow).1, (valid.free token inRow).2, flush token inRow⟩
  · exact Print.plainText_text text

/-- What is loaded from a well-formed file: the parsed rows, in chunks that can be read. -/
theorem loadTable_holds {rows : List (List String)} (file : files fileName = some
      (fileText (schema.names :: schema.types.map ColumnType.typeString :: rows) final))
    (names : Tokens schema.names)
    (cells : ∀ row ∈ rows, Tokens row ∧ ∃ values, parseRow schema.types row = .ok values)
    (few : rows.length < 2 ^ 32 - 1) :
    ∃ t log, loadTable files fileName schema.chunkSize.toUInt64 = .ok t ∧ t.Holds schema log ∧
      t.Shows log.segments ∧ t.readRows = .ok log.rows ∧
      List.Forall₂ (fun row values => parseRow schema.types row = .ok values) rows log.rows := by
  have some (row : List String) (member : row ∈ rows) : row ≠ [] := by
    rintro rfl
    obtain ⟨values, parse⟩ := (cells [] member).2
    have length := (castRow_eq_ok.mp parse).1
    have positive := schema.types_pos
    rw [List.map_nil, List.length_nil] at length
    omega
  obtain ⟨parsed, parses⟩ := Pointwise.exists_forall₂ fun row member => (cells row member).2
  obtain ⟨made, created, holds⟩ := schema.create_holds
  obtain ⟨t, run, holdsT⟩ := appendLines_holds holds (fun row member => (cells row member).1) parses
    (by rw [PartitionedLog.rows_empty, List.length_nil]; omega)
  have log := PartitionedLog.rows_foldl_append schema.chunkSize.toNat parsed
    (PartitionedLog.empty : PartitionedLog Row)
  rw [PartitionedLog.rows_empty, List.nil_append] at log
  have unused : (PartitionedLog.empty : PartitionedLog Row).Packed schema.chunkSize.toNat :=
    PartitionedLog.Packed.empty
  have segments := (unused.foldl_append parsed).length_segments_le
  have count := parses.length_eq
  rw [log] at segments
  have small : (parsed.foldl (PartitionedLog.append schema.chunkSize.toNat)
    PartitionedLog.empty).rows.length <
      2 ^ 32 := by
    rw [log]
    omega
  refine ⟨t, _, ?_, holdsT, holdsT.shows small (by omega), holdsT.readRows small (by omega), by rwa [log]⟩
  rw [loadTable_eq file names fun row member => ⟨(cells row member).1, some row member⟩, created,
    Outcome.returned_andThen, run, Outcome.toExcept_returned]

/-- What is printed of a loaded file: its names and types, and the texts of the parsed cells. -/
theorem loadTable_prints (casts : Print.TextCasts) {rows : List (List String)} (file : files fileName = some
      (fileText (schema.names :: schema.types.map ColumnType.typeString :: rows) final))
    (names : Tokens schema.names)
    (cells : ∀ row ∈ rows, Tokens row ∧ ∃ values, parseRow schema.types row = .ok values)
    (flush : ∀ row ∈ schema.names :: rows, ∀ token ∈ row, token.toList.head? ≠ some ' ')
    (few : rows.length < 2 ^ 32 - 1) :
    ∃ t written parsed, loadTable files fileName schema.chunkSize.toUInt64 = .ok t ∧ t.readRows = .ok parsed ∧
      Print.onExecute t ⟨[], 0⟩ = .returned ⟨written, 0⟩ ∧
      List.Forall₂ (fun row values => parseRow schema.types row = .ok values) rows parsed ∧
      Print.tableTexts written = schema.names.map String.toList ::
        (schema.types.map ColumnType.typeString).map String.toList ::
          parsed.map fun values => values.map AllTypeVariant.text := by
  obtain ⟨t, log, loaded, holds, shows, read, parses⟩ := loadTable_holds file names cells few
  have writes := Print.onExecute_writes casts shows []
  rw [List.nil_append, holds.columnNames, holds.columnTypes] at writes
  refine ⟨t, _, log.rows, loaded, read, writes, parses, ?_⟩
  refine Print.tableTexts_tableLines ?_ (fun values member => ?_) (fun name member => ?_)
    (fun type member => ?_)
    fun values member => ?_
  · rw [List.length_map, schema.length_types, schema.length_names]
  · obtain ⟨row, _, parse⟩ := Pointwise.mem_right parses member
    rw [Schema.length_castRow parse, schema.length_types, schema.length_names]
  · exact ⟨(names.free name member).1, (names.free name member).2,
      flush _ (List.mem_cons_self ..) name member⟩
  · obtain ⟨T, _, rfl⟩ := List.mem_map.mp member
    exact Print.plainText_typeString T
  · obtain ⟨row, inRows, parse⟩ := Pointwise.mem_right parses member
    exact plainText_of_parseRow (cells row inRows).1 (flush row (List.mem_cons_of_mem _ inRows)) parse

/-- The printed lines of a loaded file show its fields exactly when each value is written the way in which
it stood in the file, if no field of it begins with a blank. -/
theorem tableTexts_loaded_iff (casts : Print.TextCasts) {rows : List (List String)}
    (file : files fileName = some
      (fileText (schema.names :: schema.types.map ColumnType.typeString :: rows) final))
    (names : Tokens schema.names)
    (cells : ∀ row ∈ rows, Tokens row ∧ ∃ values, parseRow schema.types row = .ok values)
    (flush : ∀ row ∈ schema.names :: rows, ∀ token ∈ row, token.toList.head? ≠ some ' ')
    (few : rows.length < 2 ^ 32 - 1) :
    ∃ t written parsed, loadTable files fileName schema.chunkSize.toUInt64 = .ok t ∧
      Print.onExecute t ⟨[], 0⟩ = .returned ⟨written, 0⟩ ∧
      List.Forall₂ (fun row values => parseRow schema.types row = .ok values) rows parsed ∧
      (Print.tableTexts written = (schema.names :: schema.types.map ColumnType.typeString :: rows).map
          (fun row => row.map String.toList) ↔
        List.Forall₂ (fun row values => values.map AllTypeVariant.text = row.map String.toList)
          rows parsed) := by
  obtain ⟨t, written, parsed, loaded, _, writes, parses, texts⟩ :=
    loadTable_prints casts file names cells flush few
  refine ⟨t, written, parsed, loaded, writes, parses, ?_⟩
  rw [texts, List.map_cons, List.map_cons, List.cons.injEq, List.cons.injEq, and_iff_right rfl,
    and_iff_right rfl,
    ← List.forall₂_eq_eq_eq, List.forall₂_map_left_iff, List.forall₂_map_right_iff]
  exact ⟨List.Forall₂.flip, List.Forall₂.flip⟩

omit [Build] in
theorem textCasts_documentedBuild : letI := documentedBuild; Print.TextCasts := fun _ => rfl

omit [Build] in
/-- Zeros in front are lost. -/
theorem tableTexts_loaded_iff_zeros :
    letI := documentedBuild
    ∃ t written, loadTable (fun _ => some (fileText [["a"], ["int"], ["007"]] true)) "numbers.tbl" 2 = .ok t ∧
      Print.onExecute t ⟨[], 0⟩ = .returned ⟨written, 0⟩ ∧
      Print.tableTexts written ≠ [["a".toList], ["int".toList], ["007".toList]] := by
  let _ := documentedBuild
  let schema : Schema := ⟨[("a", .int)], 2, by decide, by decide, by decide⟩
  have cells : ∀ row ∈ [["007"]], Tokens row ∧ ∃ values, parseRow schema.types row = .ok values := by
    simp only [List.forall_mem_cons, List.not_mem_nil]
    exact ⟨⟨⟨by decide, by decide⟩, [⟨.int, (7 : Int32)⟩], rfl⟩, by simp⟩
  have file : (fun _ => some (fileText [["a"], ["int"], ["007"]] true)) "numbers.tbl" =
      some (fileText (schema.names :: schema.types.map ColumnType.typeString :: [["007"]]) true) := rfl
  obtain ⟨t, written, parsed, loaded, writes, parses, shown⟩ :=
    tableTexts_loaded_iff textCasts_documentedBuild file
    ⟨by decide, by decide⟩ cells (by decide) (by decide)
  refine ⟨t, written, loaded, writes, fun same => ?_⟩
  have texts := shown.mp same
  cases parses with
  | cons parse _ =>
    cases texts with
    | cons text _ =>
      cases parse
      exact absurd text (by decide)

/-- The tokens of a line that shows the row. -/
def tokensOf (row : Row) : List String := row.map fun cell => String.ofList cell.text

/-- What a stream writes for a number without fraction, or for a string, is read back. -/
theorem castTo_text (casts : BoostCasts) {cell : AllTypeVariant} (ordered : cell.which.Ordered) :
    castTo cell.which (ofString (String.ofList cell.text)) = .ok cell := by
  have integral (I : IntegralType) (x : I.columnType.Elem) :
      typeCast I.columnType (ofString (String.ofList (integer (I.toInt x)))) = .ok x := by
    have other : (ofString (String.ofList (integer (I.toInt x)))).which ≠ I.columnType := by
      show ColumnType.string ≠ _
      cases I <;> decide
    have second : I.columnType.isIntegral = true := by cases I <;> rfl
    have read : Build.lexicalCast I.columnType (ofString (String.ofList (integer (I.toInt x)))) = some x := by
      rw [casts.lexicalIntegral]
      show (readInteger (String.ofList (integer (I.toInt x))).toList).bind I.ofInt? = some x
      rw [String.toList_ofList, readInteger_integer, Option.bind_some, IntegralType.ofInt?,
        if_pos (I.inRange_toInt x),
        I.ofInt_toInt]
    rw [typeCast, dif_neg other, if_pos second, lexicalCast, read]
  obtain ⟨T, x⟩ := cell
  rcases ColumnType.ordered_iff.mp ordered with rfl | rfl | rfl
  · exact congrArg (Except.map _) (integral .int x)
  · exact congrArg (Except.map _) (integral .long x)
  · exact congrArg (fun s : String => (.ok ⟨.string, s⟩ : Except Fault AllTypeVariant)) String.ofList_toList

theorem parseRow_tokensOf (casts : BoostCasts) {types : List ColumnType} {row : Row}
    (ordered : ∀ T ∈ types, T.Ordered) (typed : row.map AllTypeVariant.which = types) :
    parseRow types (tokensOf row) = .ok row := by
  subst typed
  refine castRow_eq_ok.mpr ⟨by simp [tokensOf],
    Pointwise.of_getElem? (by simp [tokensOf]) fun k cell x atK atX => ?_⟩
  obtain ⟨atType, atToken⟩ := List.getElem?_zip_eq_some.mp atK
  simp only [tokensOf, List.getElem?_map, atX, Option.map_some, Option.some.injEq] at atType atToken
  rw [← atType, ← atToken]
  exact castTo_text casts (ordered x.which (List.mem_map_of_mem (List.mem_of_getElem? atX)))

/-- Rows that are written to a file come back: `load_table` gives a table with these rows, and `Print` shows
the fields of the file. -/
theorem load_written_rows (casts : BoostCasts) (texts : Print.TextCasts) (ordered : schema.Ordered)
    {rows : List Row} (typed : ∀ row ∈ rows, row.map AllTypeVariant.which = schema.types)
    (file : files fileName = some
      (fileText (schema.names :: schema.types.map ColumnType.typeString :: rows.map tokensOf) final))
    (names : Tokens schema.names) (tokens : ∀ row ∈ rows, Tokens (tokensOf row))
    (flush : ∀ row ∈ schema.names :: rows.map tokensOf, ∀ token ∈ row, token.toList.head? ≠ some ' ')
    (few : rows.length < 2 ^ 32 - 1) :
    ∃ t written, loadTable files fileName schema.chunkSize.toUInt64 = .ok t ∧ t.readRows = .ok rows ∧
      Print.onExecute t ⟨[], 0⟩ = .returned ⟨written, 0⟩ ∧ Print.tableTexts written =
        (schema.names :: schema.types.map ColumnType.typeString :: rows.map tokensOf).map
          (fun row => row.map String.toList) := by
  have parse (row : Row) (member : row ∈ rows) : parseRow schema.types (tokensOf row) = .ok row :=
    parseRow_tokensOf casts ordered (typed row member)
  have cells : ∀ row ∈ rows.map tokensOf, Tokens row ∧ ∃ values, parseRow schema.types row = .ok values := by
    intro line member
    obtain ⟨row, inRows, rfl⟩ := List.mem_map.mp member
    exact ⟨tokens row inRows, row, parse row inRows⟩
  obtain ⟨t, written, parsed, loaded, read, writes, parses, shown⟩ :=
    loadTable_prints texts file names cells flush (by rwa [List.length_map])
  have same : parsed = rows := by
    rw [List.forall₂_map_left_iff] at parses
    have each : List.Forall₂ Eq rows parsed := Pointwise.imp_mem parses fun row values member made =>
      Except.ok.inj ((parse row member).symm.trans made)
    exact (List.forall₂_eq_eq_eq ▸ each : rows = parsed).symm
  subst same
  refine ⟨t, written, loaded, read, writes, shown.trans ?_⟩
  simp [tokensOf, Function.comp_def]

omit [Build] in
theorem load_written_rows_two_rows :
    letI := documentedBuild
    ∃ t written,
      loadTable (fun _ => some (fileText [["a", "b"], ["int", "string"], ["7", "x y"], ["-1", "z"]] true))
        "numbers.tbl" 2 = .ok t ∧
      t.readRows = .ok [[⟨.int, (7 : Int32)⟩, ⟨.string, "x y"⟩], [⟨.int, (-1 : Int32)⟩, ⟨.string, "z"⟩]] ∧
      Print.onExecute t ⟨[], 0⟩ = .returned ⟨written, 0⟩ ∧ Print.tableTexts written =
        [["a", "b"], ["int", "string"], ["7", "x y"], ["-1", "z"]].map fun row => row.map String.toList := by
  let _ := documentedBuild
  let schema : Schema := ⟨[("a", .int), ("b", .string)], 2, by decide, by decide, by decide⟩
  let rows : List Row := [[⟨.int, (7 : Int32)⟩, ⟨.string, "x y"⟩], [⟨.int, (-1 : Int32)⟩, ⟨.string, "z"⟩]]
  have lines : rows.map tokensOf = [["7", "x y"], ["-1", "z"]] := by decide
  have tokens : ∀ row ∈ rows, Tokens (tokensOf row) := by
    simp only [rows, List.forall_mem_cons, List.not_mem_nil]
    exact ⟨⟨by decide, by decide⟩, ⟨by decide, by decide⟩, by simp⟩
  have file : (fun _ => some (fileText [["a", "b"], ["int", "string"], ["7", "x y"], ["-1", "z"]] true))
    "numbers.tbl" =
      some (fileText (schema.names :: schema.types.map ColumnType.typeString :: rows.map tokensOf) true) := by
    rw [lines]
    rfl
  have ordered : schema.Ordered := by simp [schema, Schema.Ordered, Schema.types, ColumnType.ordered_iff]
  obtain ⟨t, written, loaded, read, writes, shown⟩ := load_written_rows documentedBuild_casts
    textCasts_documentedBuild ordered (by decide) file ⟨by decide, by decide⟩ tokens (by decide) (by decide)
  exact ⟨t, written, loaded, read, writes, shown.trans (by rw [lines]; rfl)⟩

end Opossum

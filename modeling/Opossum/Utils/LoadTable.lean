import Opossum.Foundation.Getline
import Opossum.Storage.TableRuns

namespace Opossum

/-- `_split<T>`, given the conversion of a token to `T`. -/
def split {α : Type} (ofToken : String → α) (str : String) (delimiter : Char) : List α :=
  (IStream.getlines delimiter (.ofString str) "").map ofToken

/-- The conversion of `std::string` to `AllTypeVariant`. -/
def ofString (token : String) : AllTypeVariant := ⟨.string, token⟩

section
variable {delimiter : Char} {tokens : List String}

theorem split_intercalate {α : Type} (ofToken : String → α)
    (free : ∀ token ∈ tokens, delimiter ∉ token.toList) :
    split ofToken ((String.singleton delimiter).intercalate tokens) delimiter =
      (if tokens.getLast? = some "" then tokens.dropLast else tokens).map ofToken := by
  rw [split, IStream.getlines_intercalate free]

/-- Splitting undoes joining, and a row keeps its number of cells, exactly when the last token is not empty:
an empty token at the start or in the middle has a delimiter behind it. -/
theorem split_intercalate_iff (free : ∀ token ∈ tokens, delimiter ∉ token.toList) :
    split id ((String.singleton delimiter).intercalate tokens) delimiter = tokens ∧
      (split ofString ((String.singleton delimiter).intercalate tokens) delimiter).length = tokens.length ↔
        tokens.getLast? ≠ some "" := by
  rw [split_intercalate id free, split_intercalate ofString free, List.map_id, List.length_map]
  constructor
  · rintro ⟨_, length⟩ last
    have positive : 0 < tokens.length := List.length_pos_of_mem (List.mem_of_getLast? last)
    rw [if_pos last, List.length_dropLast] at length
    omega
  · intro last
    rw [if_neg last]
    exact ⟨rfl, rfl⟩

theorem split_intercalate_iff_empty_first :
    split id ((String.singleton '|').intercalate ["", "b"]) '|' = ["", "b"] ∧
      (split ofString ((String.singleton '|').intercalate ["", "b"]) '|').length = 2 :=
  (split_intercalate_iff (by decide)).mpr (by decide)

/-- `"7|"` is read as one cell. -/
theorem split_loses_last :
    ¬∀ (delimiter : Char) (tokens : List String), tokens ≠ [] →
      (∀ token ∈ tokens, delimiter ∉ token.toList) →
        split id ((String.singleton delimiter).intercalate tokens) delimiter = tokens := by
  intro all
  have same := all '|' ["7", ""] (by simp) (by decide)
  rw [split_intercalate id (by decide)] at same
  exact absurd same (by decide)

end

variable [Build]

/-- One round of the loop over the column names. `col_types[i]` is not checked. -/
def addNamedColumn (colNames colTypes : List String) (i : Nat) (testTable : Table) :
    Outcome Fault Table :=
  match colNames[i]?, colTypes[i]? with
  | some name, some type => testTable.addColumn name type
  | _, _ => .stopped .undefined testTable

/-- One round of the loop over the rows. -/
def appendLine (line : String) (testTable : Table) : Outcome Fault Table :=
  testTable.append (split ofString line '|')

/-- `load_table`, given the contents of the files that can be opened. -/
def loadTable (files : String → Option String) (fileName : String) (chunkSize : UInt64) :
    Except Fault Table :=
  match files fileName with
  | none => .error (.logicError ("load_table: Could not find file " ++ fileName))
  | some content =>
    let (infile, line) := IStream.getline '\n' (.ofString content) ""
    let colNames := split id line '|'
    let (infile, line) := IStream.getline '\n' infile line
    let colTypes := split id line '|'
    ((Table.new chunkSize.toUInt32).andThen fun testTable =>
      (Outcome.loop (addNamedColumn colNames colTypes) (List.range colNames.length) testTable).andThen
        (Outcome.loop appendLine (IStream.getlines '\n' infile line))).toExcept

/-- A file of lines of tokens. -/
def fileText (lines : List (List String)) (final : Bool) : String :=
  "\n".intercalate (lines.map fun tokens => "|".intercalate tokens) ++ if final then "\n" else ""

omit [Build] in
theorem toList_fileText {lines : List (List String)} (some : lines ≠ []) (final : Bool) :
    (fileText lines final).toList =
      IStream.text '\n' (lines.map fun tokens => "|".intercalate tokens) final := by
  obtain ⟨tokens, lines, rfl⟩ := List.exists_cons_of_ne_nil some
  have joined := IStream.toList_intercalate '\n' ((tokens :: lines).map fun tokens => "|".intercalate tokens)
  cases final with
  | false => simpa [fileText] using joined
  | true =>
    rw [List.map_cons, IStream.text_final,
      ← List.map_cons (f := fun tokens => "|".intercalate tokens), ← joined]
    simp [fileText]

/-- Tokens that a line can be made of: no delimiter inside, and the last one not empty. -/
structure Tokens (tokens : List String) : Prop where
  free : ∀ token ∈ tokens, '|' ∉ token.toList ∧ '\n' ∉ token.toList
  last : tokens.getLast? ≠ some ""

omit [Build] in
theorem Tokens.split {α : Type} {tokens : List String} (valid : Tokens tokens) (ofToken : String → α) :
    split ofToken ("|".intercalate tokens) '|' = tokens.map ofToken := by
  rw [show "|" = String.singleton '|' from rfl, split_intercalate ofToken fun token member =>
    (valid.free token member).1, if_neg valid.last]

omit [Build] in
theorem Tokens.line {tokens : List String} (valid : Tokens tokens) :
    '\n' ∉ ("|".intercalate tokens).toList := by
  rw [show "|" = String.singleton '|' from rfl, IStream.toList_intercalate]
  intro member
  rcases IStream.mem_text member with separator | ⟨token, inTokens, inToken⟩
  · cases separator
  · exact (valid.free token inTokens).2 inToken

omit [Build] in
theorem Tokens.line_ne {tokens : List String} (valid : Tokens tokens) (some : tokens ≠ []) :
    "|".intercalate tokens ≠ "" := by
  intro empty
  have none := congrArg String.toList empty
  rw [show "|" = String.singleton '|' from rfl, IStream.toList_intercalate] at none
  rcases IStream.text_eq_nil_iff.mp none with rfl | rfl
  · exact some rfl
  · exact valid.last rfl

omit [Build] in
theorem typeTokens (types : List ColumnType) : Tokens (types.map ColumnType.typeString) := by
  have each (T : ColumnType) : '|' ∉ T.typeString.toList ∧ '\n' ∉ T.typeString.toList ∧
      T.typeString ≠ "" := by
    cases T <;> decide
  constructor
  · intro token member
    obtain ⟨T, _, rfl⟩ := List.mem_map.mp member
    exact ⟨(each T).1, (each T).2.1⟩
  · intro last
    obtain ⟨T, _, same⟩ := List.mem_map.mp (List.mem_of_getLast? last)
    exact (each T).2.2 same

variable {schema : Schema} {log : PartitionedLog Row} {t : Table}

/-- The row of a line: its cells, each of them cast from a string. -/
def parseRow (types : List ColumnType) (cells : List String) : Except Fault Row :=
  castRow types (cells.map ofString)

theorem appendLines_holds {rows : List (List String)} {parsed : List Row} (holds : t.Holds schema log)
    (cells : ∀ row ∈ rows, Tokens row)
    (parses : List.Forall₂ (fun row values => parseRow schema.types row = .ok values) rows parsed)
    (small : log.rows.length + rows.length < 2 ^ 32) :
    ∃ left, Outcome.loop appendLine (rows.map fun row => "|".intercalate row) t = .returned left ∧
      left.Holds schema (parsed.foldl (PartitionedLog.append schema.chunkSize.toNat) log) := by
  induction parses generalizing t log with
  | nil => exact ⟨t, rfl, holds⟩
  | @cons row values rows parsed parse _ ih =>
    rw [List.length_cons] at small
    obtain ⟨left, run, holdsLeft⟩ := holds.append (by omega) parse
    have line : appendLine ("|".intercalate row) t = .returned left := by
      rw [appendLine, (cells row (List.mem_cons_self ..)).split, run]
    rw [List.map_cons, Outcome.loop_cons, line, Outcome.returned_andThen, List.foldl_cons]
    refine ih holdsLeft (fun next member => cells next (List.mem_cons_of_mem _ member)) ?_
    rw [PartitionedLog.rows_append, List.length_append, List.length_singleton]
    omega

theorem addNamedColumns_eq (schema : Schema) (t : Table) :
    Outcome.loop (addNamedColumn schema.names (schema.types.map ColumnType.typeString))
        (List.range schema.names.length) t =
      Outcome.loop (fun column t => t.addColumn column.1 column.2.typeString) schema.columns t := by
  rw [schema.length_names]
  refine Outcome.loop_range (fun k column found => ?_) t
  funext t
  simp [addNamedColumn, Schema.names, Schema.types, found]

/-- What `load_table` has read when it comes to the table. -/
theorem loadTable_eq {files : String → Option String} {fileName : String} {rows : List (List String)}
    {final : Bool} (file : files fileName = some
      (fileText (schema.names :: schema.types.map ColumnType.typeString :: rows) final))
    (names : Tokens schema.names) (cells : ∀ row ∈ rows, Tokens row ∧ row ≠ []) :
    loadTable files fileName schema.chunkSize.toUInt64 = (schema.create.andThen
      (Outcome.loop appendLine (rows.map fun row => "|".intercalate row))).toExcept := by
  have types := typeTokens schema.types
  have rowLines : IStream.getlines '\n' (IStream.after '\n'
      ("|".intercalate (schema.types.map ColumnType.typeString))
      (rows.map fun row => "|".intercalate row) final)
      ("|".intercalate (schema.types.map ColumnType.typeString)) =
        rows.map fun row => "|".intercalate row := by
    refine IStream.getlines_after _ (fun line member => ?_) (Or.inr fun last => ?_)
    · obtain ⟨row, inRows, rfl⟩ := List.mem_map.mp member
      exact (cells row inRows).1.line
    · obtain ⟨row, inRows, empty⟩ := List.mem_map.mp (List.mem_of_getLast? last)
      exact (cells row inRows).1.line_ne (cells row inRows).2 empty
  have first := IStream.getline_text
    (("|".intercalate (schema.types.map ColumnType.typeString)) :: rows.map fun row => "|".intercalate row)
    final "" names.line
  rw [IStream.after, if_neg (by simp)] at first
  have second := IStream.getline_text (rows.map fun row => "|".intercalate row) final
    ("|".intercalate schema.names) types.line
  unfold loadTable
  rw [file]
  simp only [IStream.ofString, toList_fileText (List.cons_ne_nil _ _), List.map_cons, first, second,
    names.split, types.split, List.map_id, rowLines, addNamedColumns_eq, UInt32.toUInt32_toUInt64]
  rw [Schema.create, Table.createWith]
  cases Table.new schema.chunkSize <;> rfl

/-- A well-formed file is read back: the columns in order, the parsed rows in order, and no more chunks
than the rows need. -/
theorem loadTable_wellFormed {files : String → Option String} {fileName : String}
    {rows : List (List String)} {final : Bool} (file : files fileName = some
      (fileText (schema.names :: schema.types.map ColumnType.typeString :: rows) final))
    (names : Tokens schema.names)
    (cells : ∀ row ∈ rows, Tokens row ∧ ∃ values, parseRow schema.types row = .ok values)
    (few : rows.length < 2 ^ 32) :
    ∃ t parsed, loadTable files fileName schema.chunkSize.toUInt64 = .ok t ∧
      t.columnNames = schema.names ∧ t.columnTypes = schema.types.map ColumnType.typeString ∧
      rows.mapM (parseRow schema.types) = .ok parsed ∧ t.readRows = .ok parsed ∧
      t.chunkCount.toNat = if schema.chunkSize = 0 then 1 else
        max 1 ((rows.length + schema.chunkSize.toNat - 1) / schema.chunkSize.toNat) := by
  have some (row : List String) (member : row ∈ rows) : row ≠ [] := by
    rintro rfl
    obtain ⟨values, parse⟩ := (cells [] member).2
    have length := (castRow_eq_ok.mp parse).1
    have positive := schema.types_pos
    rw [List.map_nil, List.length_nil] at length
    omega
  obtain ⟨parsed, parses⟩ := Pointwise.exists_forall₂ fun row member => (cells row member).2
  have count := parses.length_eq
  obtain ⟨made, created, holds⟩ := schema.create_holds
  obtain ⟨t, run, holdsT⟩ := appendLines_holds holds (fun row member => (cells row member).1) parses
    (by simpa using few)
  have rowsEq := PartitionedLog.rows_foldl_append schema.chunkSize.toNat parsed
    (PartitionedLog.empty : PartitionedLog Row)
  have unused : (PartitionedLog.empty : PartitionedLog Row).Packed schema.chunkSize.toNat :=
    PartitionedLog.Packed.empty
  have packed := unused.foldl_append parsed
  have segments := packed.length_segments_le
  rw [PartitionedLog.rows_empty, List.nil_append] at rowsEq
  have total := congrArg List.length rowsEq
  refine ⟨t, parsed, ?_, holdsT.columnNames, holdsT.columnTypes, Except.mapM_eq_ok.mpr parses, ?_, ?_⟩
  · rw [loadTable_eq file names fun row member => ⟨(cells row member).1, some row member⟩, created,
      Outcome.returned_andThen, run, Outcome.toExcept_returned]
  · rw [holdsT.readRows (by omega) (by omega), rowsEq]
  · rw [holdsT.chunkCount_toNat (by omega)]
    split
    · rename_i infinite
      rw [infinite] at packed ⊢
      rw [packed.segments_eq]
      rfl
    · rename_i finite
      have positive : 0 < schema.chunkSize.toNat := Nat.pos_of_ne_zero (mt toNat_eq_zero_iff.mp finite)
      rw [packed.length_segments_eq positive, rowsEq, count]

/-- A debug build whose conversions know the numbers of one digit. -/
@[reducible] def digitBuild : Build where
  isDebug := true
  lexicalCast
    | .int, ⟨.string, text⟩ =>
      match String.toList text with
      | [digit] => if digit.isDigit then some (Int32.ofNat (digit.toNat - '0'.toNat)) else none
      | _ => none
    | _, _ => none
  numericCast _ _ := none

omit [Build] in
theorem loadTable_wellFormed_three_rows :
    letI := digitBuild
    ∃ t, loadTable
      (fun _ => some (fileText [["a", "b"], ["int", "string"], ["7", "x"], ["8", "y"], ["9", "z"]]
        true)) "numbers.tbl" 2 = .ok t ∧ t.columnNames = ["a", "b"] ∧ t.chunkCount.toNat = 2 := by
  let _ := digitBuild
  let schema : Schema := ⟨[("a", .int), ("b", .string)], 2, by decide, by decide, by decide⟩
  have cells : ∀ row ∈ [["7", "x"], ["8", "y"], ["9", "z"]],
      Tokens row ∧ ∃ values, parseRow schema.types row = .ok values := by
    simp only [List.forall_mem_cons, List.not_mem_nil]
    exact ⟨⟨⟨by decide, by decide⟩, _, rfl⟩, ⟨⟨by decide, by decide⟩, _, rfl⟩,
      ⟨⟨by decide, by decide⟩, _, rfl⟩, by simp⟩
  have file : (fun _ => some (fileText [["a", "b"], ["int", "string"], ["7", "x"], ["8", "y"], ["9", "z"]]
      true)) "numbers.tbl" = some (fileText (schema.names :: schema.types.map ColumnType.typeString ::
        [["7", "x"], ["8", "y"], ["9", "z"]]) true) := rfl
  obtain ⟨t, parsed, run, columnNames, _, _, _, count⟩ :=
    loadTable_wellFormed file ⟨by decide, by decide⟩ cells (by decide)
  exact ⟨t, run, columnNames, count.trans (by decide)⟩

end Opossum

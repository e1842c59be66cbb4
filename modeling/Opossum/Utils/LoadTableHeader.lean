import Opossum.Storage.ErrorAtomicity
import Opossum.Utils.LoadTable

/-!
# Headers of every kind

The loop over the header runs over the column names of the first line and reads the types of the second
line without looking at their number, or at whether there is a second line at all.
-/

namespace Opossum

/-- The lines of a file. -/
def fileLines (content : String) : List String := split id content '\n'

/-- The tokens of one of the lines. A line that is not there has none. -/
def lineTokens (content : String) (k : Nat) : List String :=
  match (fileLines content)[k]? with
  | some line => split id line '|'
  | none => []

/-- The types that the loop over the column names looks at. If the file has no line break, the second
`getline` fails and leaves the first line in `line`. -/
def headerTypes (content : String) : List String :=
  if '\n' ∈ content.toList then lineTokens content 1 else lineTokens content 0

/-- `col_names` and `col_types`, and the stream behind them with the value of `line` there. -/
structure Header where
  colNames : List String
  colTypes : List String
  infile : IStream
  line : String

/-- What `load_table` has read before it makes the table. -/
def Header.read (content : String) : Header :=
  let (infile, line) := IStream.getline '\n' (.ofString content) ""
  let colNames := split id line '|'
  let (infile, line) := IStream.getline '\n' infile line
  ⟨colNames, split id line '|', infile, line⟩

section
variable {content : String}

theorem split_empty : split id "" '|' = [] := by
  rw [split, IStream.ofString, String.toList_empty, IStream.getlines_nil, List.map_nil]

/-- The file up to its first line break. -/
theorem exists_firstLine (breaks : '\n' ∈ content.toList) : ∃ (line : String) (rest : List Char),
    '\n' ∉ line.toList ∧ content.toList = line.toList ++ '\n' :: rest := by
  obtain ⟨front, rest, split, free⟩ := List.eq_append_cons_of_mem breaks
  exact ⟨String.ofList front, rest, by rwa [String.toList_ofList], by rw [String.toList_ofList, split]⟩

theorem fileLines_of_no_break (unbroken : '\n' ∉ content.toList) :
    fileLines content = if content = "" then [] else [content] := by
  rw [fileLines, split, List.map_id, IStream.getlines, IStream.ofString, IStream.getline_last "" unbroken,
    IStream.getlines_nil]
  simp

theorem fileLines_of_break {line : String} {rest : List Char} (free : '\n' ∉ line.toList)
    (broken : content.toList = line.toList ++ '\n' :: rest) :
    fileLines content = line :: IStream.getlines '\n' ⟨rest, false, false⟩ line := by
  rw [fileLines, split, List.map_id, IStream.getlines, IStream.ofString, broken,
    IStream.getline_delimited "" free, if_pos rfl]

namespace Header

theorem read_of_no_break (unbroken : '\n' ∉ content.toList) :
    read content = ⟨split id content '|', split id content '|', ⟨[], true, true⟩, content⟩ := by
  simp only [read, IStream.ofString, IStream.getline_last "" unbroken, IStream.getline_of_eof]

theorem read_of_break {line : String} {rest : List Char} (free : '\n' ∉ line.toList)
    (broken : content.toList = line.toList ++ '\n' :: rest) :
    read content = ⟨split id line '|', split id (IStream.getline '\n' ⟨rest, false, false⟩ line).2 '|',
      (IStream.getline '\n' ⟨rest, false, false⟩ line).1,
      (IStream.getline '\n' ⟨rest, false, false⟩ line).2⟩ := by
  simp only [read, IStream.ofString, broken, IStream.getline_delimited "" free]

/-- The names come from the first line. -/
theorem read_colNames (content : String) : (read content).colNames = lineTokens content 0 := by
  by_cases breaks : '\n' ∈ content.toList
  · obtain ⟨line, rest, free, broken⟩ := exists_firstLine breaks
    rw [read_of_break free broken, lineTokens, fileLines_of_break free broken]
    rfl
  · rw [read_of_no_break breaks, lineTokens, fileLines_of_no_break breaks]
    by_cases empty : content = ""
    · rw [if_pos empty, empty]
      exact split_empty
    · rw [if_neg empty]
      rfl

/-- The types come from the second line, if there is a line break. -/
theorem read_colTypes (content : String) : (read content).colTypes = headerTypes content := by
  by_cases breaks : '\n' ∈ content.toList
  · obtain ⟨line, rest, free, broken⟩ := exists_firstLine breaks
    rw [read_of_break free broken, headerTypes, if_pos breaks, lineTokens, fileLines_of_break free broken,
      IStream.getlines]
    cases failed : (IStream.getline '\n' ⟨rest, false, false⟩ line).1.fail with
    | false => rfl
    | true =>
      rw [IStream.getline_of_fail failed]
      exact split_empty
  · rw [headerTypes, if_neg breaks, ← read_colNames, read_of_no_break breaks]

/-- A file without a second line has no rows. -/
theorem read_rows {content : String} (missing : (fileLines content)[1]? = none) :
    IStream.getlines '\n' (read content).infile (read content).line = [] := by
  by_cases breaks : '\n' ∈ content.toList
  · obtain ⟨line, rest, free, broken⟩ := exists_firstLine breaks
    rw [fileLines_of_break free broken, IStream.getlines] at missing
    rw [read_of_break free broken]
    cases failed : (IStream.getline '\n' ⟨rest, false, false⟩ line).1.fail with
    | false =>
      rw [failed, if_pos rfl] at missing
      cases missing
    | true =>
      rw [IStream.getline_of_fail failed]
      exact IStream.getlines_nil ..
  · rw [read_of_no_break breaks]
    exact IStream.getlines_nil ..

end Header

theorem lineTokens_of_missing {k : Nat} (missing : (fileLines content)[k]? = none) :
    lineTokens content k = [] := by
  rw [lineTokens, missing]

theorem headerTypes_of_secondLine {line : String} (second : (fileLines content)[1]? = some line) :
    headerTypes content = lineTokens content 1 := by
  refine if_pos ?_
  by_contra unbroken
  rw [fileLines_of_no_break unbroken] at second
  split at second <;> cases second

end

variable [Build]

/-- The first rounds of the loop over the header. -/
def Header.rounds (header : Header) (chunkSize : UInt32) (n : Nat) : Outcome Fault Table :=
  (Table.new chunkSize).andThen
    (Outcome.loop (addNamedColumn header.colNames header.colTypes) (List.range n))

theorem loadTable_eq_rounds {files : String → Option String} {fileName content : String}
    (file : files fileName = some content) (chunkSize : UInt64) :
    loadTable files fileName chunkSize =
      (((Header.read content).rounds chunkSize.toUInt32 (Header.read content).colNames.length).andThen
        (Outcome.loop appendLine
          (IStream.getlines '\n' (Header.read content).infile (Header.read content).line))).toExcept := by
  unfold loadTable
  rw [file, Header.rounds, Table.new_eq]
  rfl

namespace Table
variable {chunkSize : UInt32} {columns : List (String × ColumnType)} {name type : String}

omit [Build] in
/-- A table whose columns are all instantiated accepts new names only. -/
theorem not_known_of_defines {t' : Table} (defines : (started chunkSize columns).Defines name type t') :
    name ∉ columns.map Prod.fst := by
  cases defines with
  | known _ _ free =>
    have member := List.mem_of_getElem? free
    simp [started] at member
  | new absent => exact absent

/-- One more column for a table that has all its columns: it is added, or else the call throws, unless
a new column of an unsupported type is to be made in a release build. -/
theorem addColumn_started_cases (chunkSize : UInt32) (columns : List (String × ColumnType))
    (name type : String) :
    (∃ T : ColumnType, T.typeString = type ∧ name ∉ columns.map Prod.fst ∧ columns.length + 1 < 2 ^ 16 ∧
      (started chunkSize columns).addColumn name type =
        .returned (started chunkSize (columns ++ [(name, T)]))) ∨
    ¬(Supported type ∧ name ∉ columns.map Prod.fst ∧ columns.length + 1 < 2 ^ 16) ∧
      ∃ fault left, (started chunkSize columns).addColumn name type = .stopped fault left ∧
        (fault.Catchable ↔ Build.isDebug = true ∨ Supported type ∨ name ∈ columns.map Prod.fst) := by
  cases run : (started chunkSize columns).addColumn name type with
  | returned left =>
    obtain ⟨t', chunks, id, defines, taken, found, _⟩ := addColumn_eq_returned.mp run
    obtain ⟨_, _, made⟩ := Pointwise.mem_left taken (List.mem_singleton.mpr rfl)
    obtain ⟨T, rfl, _⟩ := instantiate_eq_returned.mp made
    have absent := not_known_of_defines defines
    obtain ⟨place, room⟩ := defines.place found
    have beyond : (started chunkSize columns).columnNames.idxOf name = columns.length := by
      simpa [started] using List.idxOf_eq_length absent
    have fits : columns.length + 1 < 2 ^ 16 := by omega
    exact Or.inl ⟨T, rfl, absent, fits, run.symm.trans (addColumn_started chunkSize T absent fits)⟩
  | stopped fault left =>
    refine Or.inr ⟨?_, fault, left, rfl, ?_⟩
    · rintro ⟨⟨T, rfl⟩, absent, fits⟩
      rw [addColumn_started chunkSize T absent fits] at run
      cases run
    by_cases known : name ∈ columns.map Prod.fst
    · have refused : ¬∃ t', (started chunkSize columns).Defines name type t' := by
        rintro ⟨_, defines⟩
        exact not_known_of_defines defines known
      obtain ⟨fault', catchable, stop⟩ := addColumn_of_refused refused
      cases run.symm.trans stop
      exact iff_of_true catchable (Or.inr (Or.inr known))
    · simp only [known, or_false]
      constructor
      · intro catchable
        by_contra neither
        obtain ⟨release, unsupported⟩ := not_or.mp neither
        have defines : (started chunkSize columns).Defines name type _ := .new known
        have nonempty : (started chunkSize columns).chunks ≠ [] := List.cons_ne_nil _ _
        obtain ⟨left', stop⟩ := addColumn_undefined defines nonempty unsupported
          (Bool.eq_false_iff.mpr release)
        cases run.symm.trans stop
        exact catchable rfl
      · intro made
        exact catchable_of_addColumn run made.symm

end Table

/-- The column of round `i` is added when all columns before it have been. -/
def AddsColumn (colNames colTypes : List String) (i : Nat) : Prop :=
  ∃ name type, colNames[i]? = some name ∧ colTypes[i]? = some type ∧
    Supported type ∧ name ∉ colNames.take i ∧ i + 1 < 2 ^ 16

abbrev Header.Adds (header : Header) (i : Nat) : Prop := AddsColumn header.colNames header.colTypes i

/-- The first column that is not added has a type, and the call throws for it: this is a debug build, or the
type is supported, or the name has been used before. If all columns are added, then their types are on a
second line. -/
structure Header.Safe (content : String) : Prop where
  throws : ∀ (i : Nat) name, (lineTokens content 0)[i]? = some name →
    (∀ j, j < i → AddsColumn (lineTokens content 0) (headerTypes content) j) →
      ∃ type, (headerTypes content)[i]? = some type ∧
        (Build.isDebug = true ∨ Supported type ∨ name ∈ (lineTokens content 0).take i)
  secondLine : (fileLines content)[1]? = none → lineTokens content 0 = [] ∨
    ∃ i, i < (lineTokens content 0).length ∧ ¬AddsColumn (lineTokens content 0) (headerTypes content) i

namespace Header
variable {header : Header} {chunkSize : UInt32}

/-- As long as columns are added, the table has just the columns of the header so far. -/
theorem rounds_of_adds (chunkSize : UInt32) {n : Nat} (adds : ∀ i, i < n → header.Adds i) : ∃ columns,
    columns.map Prod.fst = header.colNames.take n ∧
      columns.map (fun column => column.2.typeString) = header.colTypes.take n ∧ columns.length = n ∧
      header.rounds chunkSize n = .returned (Table.started chunkSize columns) := by
  rw [rounds, Table.new_eq, Outcome.returned_andThen]
  induction n with
  | zero => exact ⟨[], rfl, rfl, rfl, rfl⟩
  | succ n ih =>
    obtain ⟨columns, names, types, length, run⟩ := ih fun i before => adds i (by omega)
    obtain ⟨name, type, atName, atType, ⟨T, rfl⟩, absent, fits⟩ := adds n (Nat.lt_succ_self n)
    refine ⟨columns ++ [(name, T)], ?_, ?_, by simp [length], ?_⟩
    · rw [List.take_add_one, atName, List.map_append, names]
      rfl
    · rw [List.take_add_one, atType, List.map_append, types]
      rfl
    · rw [List.range_succ, Outcome.loop_append, run, Outcome.returned_andThen, Outcome.loop_cons,
        addNamedColumn, atName, atType]
      simp only
      rw [Table.addColumn_started chunkSize T (names ▸ absent) (by omega)]
      rfl

/-- The first column that is not added ends the loop, whatever comes behind it. -/
theorem rounds_of_not_adds (chunkSize : UInt32) {i n : Nat} {name : String} (inside : i < n)
    (atName : header.colNames[i]? = some name) (before : ∀ j, j < i → header.Adds j)
    (ends : ¬header.Adds i) :
    ∃ fault left, header.rounds chunkSize n = .stopped fault left ∧
      (fault.Catchable ↔ ∃ type, header.colTypes[i]? = some type ∧
        (Build.isDebug = true ∨ Supported type ∨ name ∈ header.colNames.take i)) := by
  obtain ⟨m, rfl⟩ : ∃ m, n = i + (m + 1) := ⟨n - i - 1, by omega⟩
  obtain ⟨columns, names, _, length, run⟩ := rounds_of_adds chunkSize before
  rw [rounds, Table.new_eq, Outcome.returned_andThen] at run ⊢
  rw [List.range_add, Outcome.loop_append, run, Outcome.returned_andThen, List.range_succ_eq_map,
    List.map_cons, Nat.add_zero, Outcome.loop_cons, addNamedColumn, atName]
  cases atType : header.colTypes[i]? with
  | none =>
    refine ⟨.undefined, _, rfl, iff_of_false (by simp [Fault.Catchable]) ?_⟩
    rintro ⟨_, none, _⟩
    cases none
  | some type =>
    rcases Table.addColumn_started_cases chunkSize columns name type with
      ⟨T, same, absent, fits, _⟩ | ⟨_, fault, left, stop, catchable⟩
    · exact absurd ⟨name, type, atName, atType, ⟨T, same⟩, names ▸ absent, length ▸ fits⟩ ends
    · refine ⟨fault, left, ?_, ?_⟩
      · simp only [stop, Outcome.stopped_andThen]
      · rw [catchable, names]
        simp

/-- The rows behind the header change neither names nor types, and can only throw. -/
theorem appendLines (lines : List String) {t : Table} (resolve : t.TypesResolve) (nonempty : t.chunks ≠ []) :
    (∃ chunks, Outcome.loop appendLine lines t = .returned { t with chunks := chunks }) ∨
      ∃ fault left, fault.Catchable ∧ Outcome.loop appendLine lines t = .stopped fault left := by
  induction lines generalizing t with
  | nil => exact Or.inl ⟨t.chunks, rfl⟩
  | cons line lines ih =>
    rw [Outcome.loop_cons]
    cases run : appendLine line t with
    | stopped fault left =>
      exact Or.inr ⟨fault, left, Table.catchable_of_append resolve nonempty run, rfl⟩
    | returned left =>
      have rowCall : ∀ name type, TableCall.append (split ofString line '|') ≠
        .addColumnDefinition name type ∧
          TableCall.append (split ofString line '|') ≠ .addColumn name type := by
        simp
      obtain ⟨chunks, longer, same⟩ := Table.left_rowCall (t := t) rowCall
      have left_eq : left = { t with chunks := chunks } := by
        rw [← same, TableCall.run]
        exact (congrArg Outcome.left run).symm
      have positive := List.length_pos_iff.mpr nonempty
      have nonempty' : left.chunks ≠ [] := by
        rw [left_eq]
        exact List.length_pos_iff.mp (positive.trans_le longer)
      have resolve' : left.TypesResolve := left_eq ▸ resolve
      rw [Outcome.returned_andThen]
      rcases ih resolve' nonempty' with ⟨chunks', run'⟩ | thrown
      · exact Or.inl ⟨chunks', by rw [run', left_eq]⟩
      · exact Or.inr thrown

end Header

/-- Every round of the header loop that is reached reads a type that exists, and the call ends in an
exception or in a table with the columns that the first two lines of the file name. -/
def Header.LoadsSafely (content : String) (chunkSize : UInt64) (result : Except Fault Table) : Prop :=
  (∀ i, i < (lineTokens content 0).length →
    (∃ u, (Header.read content).rounds chunkSize.toUInt32 i = .returned u) →
      i < (Header.read content).colTypes.length) ∧
  ((∃ fault, fault.Catchable ∧ result = .error fault) ∨
    ∃ t, result = .ok t ∧ t.columnNames = lineTokens content 0 ∧
      t.colCount.toNat = (lineTokens content 0).length ∧
      t.columnTypes.length = (lineTokens content 0).length ∧
      ∀ (i : Nat) type, t.columnTypes[i]? = some type → (lineTokens content 1)[i]? = some type)

omit [Build] in
theorem Header.Adds.type {header : Header} {i : Nat} (adds : header.Adds i) :
    ∃ type, header.colTypes[i]? = some type ∧ Supported type ∧ i < header.colTypes.length := by
  obtain ⟨_, type, _, atType, supported, _⟩ := adds
  exact ⟨type, atType, supported, (List.getElem?_eq_some_iff.mp atType).1⟩

/-- When all columns are added, the table has the columns of the header. -/
theorem Header.rounds_of_all {header : Header} (chunkSize : UInt32)
    (all : ∀ i, i < header.colNames.length → header.Adds i) :
    ∃ t, header.rounds chunkSize header.colNames.length = .returned t ∧ t.columnNames = header.colNames ∧
      t.colCount.toNat = header.colNames.length ∧
      t.columnTypes = header.colTypes.take header.colNames.length ∧ t.TypesResolve ∧ t.chunks ≠ [] := by
  obtain ⟨columns, names, types, length, run⟩ := rounds_of_adds chunkSize all
  rw [List.take_length] at names
  have few : header.colNames.length < 2 ^ 16 := by
    by_contra many
    obtain ⟨_, _, _, _, _, _, fits⟩ := all (2 ^ 16 - 1) (by omega)
    omega
  refine ⟨_, run, names, ?_, types, fun type member => ?_, List.cons_ne_nil _ _⟩
  · rw [Table.colCount_toNat]
    show (columns.map Prod.fst).length % 2 ^ 16 = _
    rw [names, Nat.mod_eq_of_lt few]
  · obtain ⟨column, _, rfl⟩ := List.mem_map.mp member
    exact ⟨column.2, rfl⟩

theorem Header.safe_iff (content : String) : Safe content ↔
    (∀ (i : Nat) name, (read content).colNames[i]? = some name → (∀ j, j < i → (read content).Adds j) →
      ∃ type, (read content).colTypes[i]? = some type ∧
        (Build.isDebug = true ∨ Supported type ∨ name ∈ (read content).colNames.take i)) ∧
    ((fileLines content)[1]? = none → (read content).colNames = [] ∨
      ∃ i, i < (read content).colNames.length ∧ ¬(read content).Adds i) := by
  simp only [Adds, read_colNames, read_colTypes]
  exact ⟨fun safe => ⟨safe.throws, safe.secondLine⟩, fun ⟨throws, secondLine⟩ => ⟨throws, secondLine⟩⟩

/-- When all columns are added, only a file without a second line can go wrong. -/
theorem Header.loads_iff_of_all {content : String} (chunkSize : UInt64)
    (all : ∀ i, i < (read content).colNames.length → (read content).Adds i) :
    LoadsSafely content chunkSize ((((read content).rounds chunkSize.toUInt32
      (read content).colNames.length).andThen (Outcome.loop appendLine
        (IStream.getlines '\n' (read content).infile (read content).line))).toExcept) ↔
      ((fileLines content)[1]? = none → (read content).colNames = []) := by
  obtain ⟨t, run, names, count, types, resolve, nonempty⟩ := rounds_of_all chunkSize.toUInt32 all
  have typed (i : Nat) (inside : i < (read content).colNames.length) :
      i < (read content).colTypes.length := by
    obtain ⟨_, _, _, before⟩ := (all i inside).type
    exact before
  have length : t.columnTypes.length = (read content).colNames.length := by
    rw [types, List.length_take, Nat.min_eq_left]
    by_contra fewer
    have last := typed _ (Nat.lt_of_not_le fewer)
    omega
  rw [LoadsSafely, ← read_colNames, run, Outcome.returned_andThen]
  cases second : (fileLines content)[1]? with
  | none =>
    rw [read_rows second, Outcome.loop_nil, Outcome.toExcept_returned, lineTokens_of_missing second]
    constructor
    · rintro ⟨_, ⟨_, _, thrown⟩ | ⟨_, same, _, _, _, each⟩⟩ _
      · cases thrown
      · cases same
        rw [← List.length_eq_zero_iff, ← length, List.length_eq_zero_iff]
        refine List.eq_nil_iff_forall_not_mem.mpr fun type member => ?_
        obtain ⟨i, found⟩ := List.mem_iff_getElem?.mp member
        cases each i type found
    · intro empty
      refine ⟨fun i inside _ => typed i inside, Or.inr ⟨t, rfl, names, count, length, fun i type found => ?_⟩⟩
      rw [empty rfl, List.length_nil, List.length_eq_zero_iff] at length
      rw [length] at found
      cases found
  | some line =>
    refine iff_of_true ⟨fun i inside _ => typed i inside, ?_⟩ nofun
    rcases appendLines (IStream.getlines '\n' (read content).infile (read content).line) resolve nonempty with
      ⟨chunks, loaded⟩ | ⟨fault, left, catchable, stop⟩
    · refine Or.inr ⟨{ t with chunks := chunks }, by rw [loaded, Outcome.toExcept_returned], names,
        count, length,
        fun i type found => ?_⟩
      have atTypes : t.columnTypes[i]? = some type := found
      rw [types, read_colTypes, headerTypes_of_secondLine second, List.getElem?_take] at atTypes
      split at atTypes
      · exact atTypes
      · cases atTypes
    · exact Or.inl ⟨fault, catchable, by rw [stop, Outcome.toExcept_stopped]⟩

/-- `load_table` is safe for exactly the files whose first column that is not added makes it throw, and which
have a second line if all columns are added. -/
theorem loadTable_safe_iff {files : String → Option String} {fileName content : String}
    (file : files fileName = some content) (chunkSize : UInt64) :
    Header.LoadsSafely content chunkSize (loadTable files fileName chunkSize) ↔ Header.Safe content := by
  rw [loadTable_eq_rounds file, Header.safe_iff]
  by_cases all : ∀ i, i < (Header.read content).colNames.length → (Header.read content).Adds i
  · rw [Header.loads_iff_of_all chunkSize all]
    constructor
    · refine fun named => ⟨fun i name atName _ => ?_, fun missing => Or.inl (named missing)⟩
      obtain ⟨type, atType, supported, _⟩ := (all i (List.getElem?_eq_some_iff.mp atName).1).type
      exact ⟨type, atType, Or.inr (Or.inl supported)⟩
    · rintro ⟨_, secondLine⟩ missing
      rcases secondLine missing with empty | ⟨i, inside, ends⟩
      · exact empty
      · exact absurd (all i inside) ends
  · obtain ⟨i, inside, ends, before⟩ : ∃ i, i < (Header.read content).colNames.length ∧
        ¬(Header.read content).Adds i ∧ ∀ j, j < i → (Header.read content).Adds j := by
      classical
      push Not at all
      obtain ⟨inside, ends⟩ := Nat.find_spec all
      refine ⟨Nat.find all, inside, ends, fun j earlier => ?_⟩
      by_contra notAdded
      exact Nat.find_min all earlier ⟨by omega, notAdded⟩
    have atName := List.getElem?_eq_getElem inside
    obtain ⟨fault, left, stop, catchable⟩ :=
      Header.rounds_of_not_adds chunkSize.toUInt32 inside atName before ends
    rw [Header.LoadsSafely, ← Header.read_colNames, stop, Outcome.stopped_andThen, Outcome.toExcept_stopped]
    constructor
    · rintro ⟨_, loads⟩
      have thrown : fault.Catchable := by
        rcases loads with ⟨_, thrown, same⟩ | ⟨t, loaded, _⟩
        · cases same
          exact thrown
        · cases loaded
      refine ⟨fun i' name' atName' before' => ?_, fun _ => Or.inr ⟨i, inside, ends⟩⟩
      rcases Nat.lt_trichotomy i' i with earlier | rfl | later
      · obtain ⟨type, atType, supported, _⟩ := (before i' earlier).type
        exact ⟨type, atType, Or.inr (Or.inl supported)⟩
      · cases atName.symm.trans atName'
        exact catchable.mp thrown
      · exact absurd (before' i later) ends
    · rintro ⟨throws, _⟩
      refine ⟨fun i' _ reached => ?_, Or.inl ⟨fault, catchable.mpr (throws i _ atName before), rfl⟩⟩
      rcases Nat.lt_trichotomy i' i with earlier | rfl | later
      · obtain ⟨_, _, _, inTypes⟩ := (before i' earlier).type
        exact inTypes
      · obtain ⟨type, atType, _⟩ := throws i' _ atName before
        exact (List.getElem?_eq_some_iff.mp atType).1
      · obtain ⟨fault', left', stop', _⟩ := Header.rounds_of_not_adds chunkSize.toUInt32 later
          atName before ends
        obtain ⟨u, run⟩ := reached
        rw [stop'] at run
        cases run

omit [Build] in
theorem loadTable_safe_iff_one_column :
    letI := strictBuild
    Header.LoadsSafely "a\nint\n" 2 (loadTable (fun _ => some "a\nint\n") "a.tbl" 2) ↔
      Header.Safe "a\nint\n" :=
  letI := strictBuild
  loadTable_safe_iff rfl 2

omit [Build] in
/-- The two lines of a header, as they are read back. -/
theorem Header.read_fileText {names types : List String} (validNames : Tokens names)
    (validTypes : Tokens types) (rows : List (List String)) (final : Bool) :
    (read (fileText (names :: types :: rows) final)).colNames = names ∧
      (read (fileText (names :: types :: rows) final)).colTypes = types := by
  have first := IStream.getline_text
    (("|".intercalate types) :: rows.map fun row => "|".intercalate row) final "" validNames.line
  rw [IStream.after, if_neg (by simp)] at first
  have second := IStream.getline_text (rows.map fun row => "|".intercalate row) final
    ("|".intercalate names) validTypes.line
  simp only [read, IStream.ofString, toList_fileText (List.cons_ne_nil _ _), List.map_cons, first, second,
    validNames.split, validTypes.split, List.map_id, and_self]

omit [Build] in
/-- Two names and one type: the second round reads behind the vector of types. -/
theorem header_reads_outside :
    ¬∀ [Build] (files : String → Option String) (fileName content : String) (chunkSize : UInt64),
      files fileName = some content →
        Header.LoadsSafely content chunkSize (loadTable files fileName chunkSize) := by
  intro all
  let _ := strictBuild
  have safe := (all (fun _ => some (fileText [["a", "b"], ["int"]] true)) "ab.tbl" _ 0 rfl).1 1
  have validNames : Tokens ["a", "b"] := ⟨by decide, by decide⟩
  have validTypes : Tokens ["int"] := ⟨by decide, by decide⟩
  obtain ⟨names, types⟩ := Header.read_fileText validNames validTypes [] true
  rw [← Header.read_colNames, names, types] at safe
  have inside := safe (by decide) ⟨_, by rw [Header.rounds, names, types]; rfl⟩
  revert inside
  decide

end Opossum

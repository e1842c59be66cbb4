import Opossum.Foundation.Objects
import Opossum.Storage.StorageManager
import Opossum.Storage.TableRuns

/-!
# Tables that are shared

A program makes tables, adds them under names and calls them through its own pointers or through the names.
In any order of these calls, each table is where its own calls lead, and a name leads to the table it was
given to.
-/

namespace Opossum

open Decimal OStream

/-- The tables that have been made, and the manager. -/
structure SharedTables where
  tables : List Table
  manager : StorageManager

/-- `onNamed` is a call on what `get_table` returns. -/
inductive SharedCall
  | makeTable (chunkSize : UInt32)
  | onTable (table : TablePtr) (call : TableCall)
  | onNamed (name : String) (call : TableCall)
  | manage (call : RegistryCall String TablePtr)

variable [Build]

namespace SharedTables

def start : SharedTables := ⟨[], StorageManager.empty⟩

/-- A call through a pointer. -/
def on (table : TablePtr) (call : TableCall) (s : SharedTables) : Outcome Fault SharedTables :=
  match table with
  | none => .stopped .undefined s
  | some i =>
    match s.tables[i]? with
    | none => .stopped .undefined s
    | some t => (call.run t).within fun t => { s with tables := s.tables.set i t }

end SharedTables

def SharedCall.run : SharedCall → SharedTables → Outcome Fault SharedTables
  | .makeTable chunkSize, s =>
    match Table.new chunkSize with
    | .returned t => .returned { s with tables := s.tables ++ [t] }
    | .stopped fault _ => .stopped fault s
  | .onTable table call, s => s.on table call
  | .onNamed name call, s =>
    match s.manager.getTable name with
    | .error fault => .stopped fault s
    | .ok table => s.on table call
  | .manage call, s => (StorageManager.run call s.manager).within fun manager => { s with manager := manager }

namespace SharedTables

/-- The calls that the manager serves. -/
def managed (calls : List SharedCall) : List (RegistryCall String TablePtr) :=
  calls.filterMap fun
    | .manage call => some call
    | _ => none

/-- The calls on the tables, given what the names stand for at first. There are none if a null pointer is
dereferenced. -/
def tableCalls : (String → Option TablePtr) → List SharedCall → Option (List (ObjectCall UInt32 TableCall))
  | _, [] => some []
  | entries, .makeTable chunkSize :: calls => (tableCalls entries calls).map (.make chunkSize :: ·)
  | entries, .onTable table call :: calls =>
    table.bind fun i => (tableCalls entries calls).map (.on i call :: ·)
  | entries, .onNamed name call :: calls =>
    match entries name with
    | none => tableCalls entries calls
    | some table => table.bind fun i => (tableCalls entries calls).map (.on i call :: ·)
  | entries, .manage call :: calls => tableCalls (Registry.step entries call) calls

/-- The calls on the tables of a program that starts without any. -/
def tableCallsOf (calls : List SharedCall) : Option (List (ObjectCall UInt32 TableCall)) :=
  tableCalls (fun _ => none) calls

def Makes (chunkSize : UInt32) (made : Table) : Prop := Table.new chunkSize = .returned made

/-- What one call on one of the tables can do. -/
abbrev OnTables : List Table → ObjectCall UInt32 TableCall → List Table → Prop :=
  Objects.Next Makes (Caught Fault.Catchable TableCall.run)

variable {s left : SharedTables} {calls : List SharedCall} {entries : String → Option TablePtr}

theorem caught_on_iff {table : TablePtr} {call : TableCall} : Caught Fault.Catchable (on table) s call left ↔
    ∃ i, table = some i ∧ OnTables s.tables (.on i call) left.tables ∧ left.manager = s.manager := by
  cases table with
  | none =>
    refine iff_of_false ?_ fun ⟨i, same, _⟩ => nomatch same
    rintro (returned | ⟨fault, caught, stopped⟩)
    · cases returned
    · cases stopped
      exact caught rfl
  | some i =>
    cases found : s.tables[i]? with
    | none =>
      refine iff_of_false ?_ ?_
      · rintro (returned | ⟨fault, caught, stopped⟩)
        · simp [on, found] at returned
        · simp only [on, found, Outcome.stopped.injEq] at stopped
          exact caught stopped.1.symm
      · rintro ⟨j, same, step, _⟩
        cases same
        obtain ⟨t, _, atI, _⟩ := Objects.next_on_iff.mp step
        simp [found] at atI
    | some t =>
      have part : on (some i) call s = (call.run t).within fun t =>
          { s with tables := s.tables.set i t } := by
        simp [on, found]
      rw [caught_within_iff part]
      constructor
      · rintro ⟨u, step, rfl⟩
        exact ⟨i, rfl, .on found step, rfl⟩
      · rintro ⟨j, same, step, manager⟩
        cases same
        obtain ⟨t', u, atI, step, tables⟩ := Objects.next_on_iff.mp step
        cases found.symm.trans atI
        exact ⟨u, step, by rw [← tables, ← manager]⟩

theorem caught_makeTable_iff {chunkSize : UInt32} :
    Caught Fault.Catchable SharedCall.run s (.makeTable chunkSize) left ↔
      OnTables s.tables (.make chunkSize) left.tables ∧ left.manager = s.manager := by
  have run : SharedCall.run (.makeTable chunkSize) s =
      .returned { s with tables := s.tables ++ [Table.started chunkSize []] } := by
    simp [SharedCall.run, Table.new_eq]
  rw [Caught, run, OnTables, Objects.next_make_iff]
  simp only [Makes, Table.new_eq, Outcome.returned.injEq, reduceCtorEq, and_false, exists_false, or_false,
    exists_eq_left']
  constructor
  · rintro rfl
    exact ⟨rfl, rfl⟩
  · rintro ⟨tables, manager⟩
    rw [← tables, ← manager]

theorem caught_manage_iff {call : RegistryCall String TablePtr} :
    Caught Fault.Catchable SharedCall.run s (.manage call) left ↔
      Caught Fault.Catchable StorageManager.run s.manager call left.manager ∧ left.tables = s.tables := by
  have part : SharedCall.run (.manage call) s =
      (StorageManager.run call s.manager).within fun manager => { s with manager := manager } := rfl
  rw [caught_within_iff part]
  constructor
  · rintro ⟨manager, step, rfl⟩
    exact ⟨step, rfl⟩
  · rintro ⟨step, tables⟩
    exact ⟨left.manager, step, by rw [← tables]⟩

/-- A name that nothing is known of is reported, and nothing changes. -/
theorem caught_unknown_iff {name : String} {call : TableCall} (unknown : s.manager.tables[name]? = none) :
    Caught Fault.Catchable SharedCall.run s (.onNamed name call) left ↔ s = left := by
  have run : SharedCall.run (.onNamed name call) s = .stopped .outOfRange s := by
    simp only [SharedCall.run, StorageManager.getTable_eq_error.mpr ⟨unknown, rfl⟩]
  rw [Caught, run]
  simp [Fault.Catchable]

theorem run_named {name : String} {table : TablePtr} {call : TableCall}
    (known : s.manager.tables[name]? = some table) : SharedCall.run (.onNamed name call) s =
    on table call s := by
  simp only [SharedCall.run, StorageManager.getTable_eq_ok.mpr known]

/-- A run of the program is a run of the manager on its calls and a run of the tables on theirs. -/
theorem run_iff_parts (same : ∀ name, s.manager.tables[name]? = entries name) :
    Run (Caught Fault.Catchable SharedCall.run) s calls left ↔
      Run (Caught Fault.Catchable StorageManager.run) s.manager (managed calls) left.manager ∧
        ∃ onTables, tableCalls entries calls = some onTables ∧
          Run OnTables s.tables onTables left.tables := by
  induction calls generalizing s entries with
  | nil =>
    obtain ⟨tables, manager⟩ := s
    obtain ⟨tables', manager'⟩ := left
    simp only [managed, tableCalls, List.filterMap_nil, Run.nil_iff, Option.some.injEq, exists_eq_left',
      SharedTables.mk.injEq]
    exact and_comm
  | cons call calls ih =>
    rw [Run.cons_iff]
    have onTable (call : ObjectCall UInt32 TableCall) :
        (∃ t, (OnTables s.tables call t.tables ∧ t.manager = s.manager) ∧
          Run (Caught Fault.Catchable SharedCall.run) t calls left) ↔
        Run (Caught Fault.Catchable StorageManager.run) s.manager (managed calls) left.manager ∧
          ∃ onTables, (tableCalls entries calls).map (call :: ·) = some onTables ∧
            Run OnTables s.tables onTables left.tables := by
      constructor
      · rintro ⟨t, ⟨step, manager⟩, rest⟩
        obtain ⟨managing, onTables, resolved, onRest⟩ := (ih (manager ▸ same)).mp rest
        exact ⟨manager ▸ managing, _, by rw [resolved]; rfl, .call step onRest⟩
      · rintro ⟨managing, _, mapped, onAll⟩
        obtain ⟨onTables, resolved, rfl⟩ := Option.map_eq_some_iff.mp mapped
        obtain ⟨tables, step, onRest⟩ := Run.cons_iff.mp onAll
        exact ⟨⟨tables, s.manager⟩, ⟨step, rfl⟩, (ih (s := ⟨tables, s.manager⟩) same).mpr
          ⟨managing, onTables, resolved, onRest⟩⟩
    have onPointer (table : TablePtr) (call : TableCall) :
        (∃ t, Caught Fault.Catchable (on table) s call t ∧
          Run (Caught Fault.Catchable SharedCall.run) t calls left) ↔
        Run (Caught Fault.Catchable StorageManager.run) s.manager (managed calls) left.manager ∧
          ∃ onTables, (table.bind fun i => (tableCalls entries calls).map (.on i call :: ·)) = some onTables ∧
            Run OnTables s.tables onTables left.tables := by
      simp only [caught_on_iff]
      cases table with
      | none => simp
      | some i => simpa using onTable (.on i call)
    cases call with
    | makeTable chunkSize =>
      simp only [caught_makeTable_iff]
      exact onTable (.make chunkSize)
    | onTable table call => exact onPointer table call
    | onNamed name call =>
      cases known : entries name with
      | none =>
        simp only [caught_unknown_iff ((same name).trans known), exists_eq_left', tableCalls, known]
        exact ih same
      | some table =>
        simp only [Caught, run_named ((same name).trans known), tableCalls, known]
        exact onPointer table call
    | manage call =>
      simp only [caught_manage_iff, tableCalls]
      have next {manager : StorageManager} (step : Caught Fault.Catchable StorageManager.run
        s.manager call manager)
          (name : String) : manager.tables[name]? = Registry.step entries call name := by
        rw [← step.left_eq, StorageManager.tables_left, funext same]
      constructor
      · rintro ⟨t, ⟨step, tables⟩, rest⟩
        obtain ⟨managing, onTables⟩ := (ih (next step)).mp rest
        exact ⟨.call step managing, tables ▸ onTables⟩
      · rintro ⟨managing, onTables⟩
        obtain ⟨manager, step, managing⟩ := Run.cons_iff.mp managing
        exact ⟨⟨s.tables, manager⟩, ⟨step, rfl⟩, (ih (s := ⟨s.tables, manager⟩) (next step)).mpr
          ⟨managing, onTables⟩⟩

omit [Build] in
theorem start_entries (name : String) : start.manager.tables[name]? = none := Std.TreeMap.getElem?_emptyc

theorem parts_of_run (run : Run (Caught Fault.Catchable SharedCall.run) start calls left) :
    (∀ name, left.manager.tables[name]? = Registry.entries (managed calls) name) ∧
      ∃ onTables, tableCallsOf calls = some onTables ∧ Objects.Valid onTables ∧
        Objects.Separate Makes (Caught Fault.Catchable TableCall.run) onTables left.tables := by
  obtain ⟨managing, onTables, resolved, run⟩ := (run_iff_parts start_entries).mp run
  exact ⟨StorageManager.entries_of_run managing, onTables, resolved, Objects.run_iff.mp run⟩

/-- A program is defined exactly when it dereferences no null pointer and makes each table before it calls
it and when the calls on each table are defined. Then, whatever their order, each table is where its own
calls lead, and the manager is where its calls lead. -/
theorem isolated_run_iff : Run (Caught Fault.Catchable SharedCall.run) start calls left ↔
    ∃ onTables, tableCallsOf calls = some onTables ∧ Objects.Valid onTables ∧
      Run (Caught Fault.Catchable StorageManager.run) StorageManager.empty (managed calls) left.manager ∧
      left.tables.length = (Objects.arguments onTables).length ∧
      ∀ i chunkSize t, (Objects.arguments onTables)[i]? = some chunkSize → left.tables[i]? = some t →
        ∃ made, Table.new chunkSize = .returned made ∧
          Run (Caught Fault.Catchable TableCall.run) made (Objects.callsOn i onTables) t := by
  rw [run_iff_parts start_entries]
  constructor
  · rintro ⟨managing, onTables, resolved, run⟩
    obtain ⟨valid, length, each⟩ := Objects.run_iff.mp run
    exact ⟨onTables, resolved, valid, managing, length, each⟩
  · rintro ⟨onTables, resolved, valid, managing, length, each⟩
    exact ⟨managing, onTables, resolved, Objects.run_iff.mpr ⟨valid, length, each⟩⟩

/-- The table that a program made as number `i` got the columns of the schema, and then these calls on its
rows. -/
structure Fills (schema : Schema) (rowCalls : List TableCall) (onTables : List (ObjectCall UInt32 TableCall))
    (i : Nat) : Prop where
  chunkSize : (Objects.arguments onTables)[i]? = some schema.chunkSize
  calls : Objects.callsOn i onTables =
    schema.columns.map (fun column => .addColumn column.1 column.2.typeString) ++ rowCalls
  ordered : schema.Ordered
  castable : ∀ call ∈ rowCalls, schema.RowCall call
  short : rowCalls.countP TableCall.grows < 2 ^ 32 - 1

/-- The table that the name leads to. -/
def named (s : SharedTables) (name : String) : Except Fault Table :=
  match s.manager.getTable name with
  | .error fault => .error fault
  | .ok table =>
    match table.bind fun i => s.tables[i]? with
    | none => .error .undefined
    | some t => .ok t

variable {schema : Schema} {rowCalls : List TableCall}
  {onTables : List (ObjectCall UInt32 TableCall)} {i : Nat}

/-- The calls on the other tables and on the manager do not show in a table. -/
theorem Fills.holds (fills : Fills schema rowCalls onTables i) (resolved : tableCallsOf calls = some onTables)
    (run : Run (Caught Fault.Catchable SharedCall.run) start calls left) :
    ∃ t, left.tables[i]? = some t ∧ t.Holds schema (schema.logOf rowCalls) := by
  obtain ⟨_, _, resolved', _, length, each⟩ := parts_of_run run
  cases resolved.symm.trans resolved'
  obtain ⟨inside, _⟩ := List.getElem?_eq_some_iff.mp fills.chunkSize
  have atI := List.getElem?_eq_getElem (length ▸ inside)
  obtain ⟨made, created, own⟩ := each i _ _ fills.chunkSize atI
  cases (Table.new_eq _).symm.trans created
  rw [fills.calls, Run.append_iff] at own
  obtain ⟨u, columns, rest⟩ := own
  have loop : Outcome.loop (fun column t => t.addColumn column.1 column.2.typeString) schema.columns
      (Table.started schema.chunkSize []) = .returned (Table.started schema.chunkSize schema.columns) :=
    Table.addColumns_started [] schema.columns schema.distinct schema.few
  have added : Run (Caught Fault.Catchable TableCall.run) (Table.started schema.chunkSize [])
      (schema.columns.map fun column => .addColumn column.1 column.2.typeString)
      (Table.started schema.chunkSize schema.columns) :=
    (Run.map_iff _).mpr ((Run.of_loop loop).mono fun _ _ _ _ returned => Or.inl returned)
  obtain rfl := Run.functional Caught.functional columns added
  obtain ⟨made, created', holds⟩ := schema.create_holds
  cases schema.create_eq.symm.trans created'
  have few := Schema.length_appended_le rowCalls
  have short := fills.short
  obtain ⟨t, served, holdsT⟩ := Schema.exists_run fills.ordered fills.castable (by omega) holds
  obtain rfl := Run.functional Caught.functional rest (served.mono fun _ _ _ _ step => step.caught)
  exact ⟨_, atI, holdsT⟩

theorem Fills.small (fills : Fills schema rowCalls onTables i) :
    (schema.logOf rowCalls).rows.length < 2 ^ 32 ∧ (schema.logOf rowCalls).segments.length < 2 ^ 32 := by
  have rows := Schema.length_rows_foldl fills.castable
  have few := Schema.length_appended_le rowCalls
  have segments := schema.length_segments_foldl_le PartitionedLog.empty rowCalls
  have short := fills.short
  rw [show (PartitionedLog.empty : PartitionedLog Row).segments.length = 1 from rfl] at segments
  exact ⟨by rw [Schema.logOf]; omega, by rw [Schema.logOf]; omega⟩

/-- What a name leads to, after any calls of the program. -/
theorem named_eq_ok {name : String} {t : Table}
    (run : Run (Caught Fault.Catchable SharedCall.run) start calls left)
    (added : Registry.Added (managed calls) name (some i)) (atI : left.tables[i]? = some t) :
    left.named name = .ok t := by
  have known := (StorageManager.getTable_of_entries (parts_of_run run).1).mpr added
  simp [named, known, atI]

/-- Reading a table through any of its names gives the rows that were appended to it, through whichever
pointers and names, and in whatever order with the calls on the other tables and on the manager. -/
theorem readRows_named {name : String} (run : Run (Caught Fault.Catchable SharedCall.run) start calls left)
    (resolved : tableCallsOf calls = some onTables) (fills : Fills schema rowCalls onTables i)
    (added : Registry.Added (managed calls) name (some i)) :
    ∃ t rows, left.named name = .ok t ∧ (appended rowCalls).mapM (castRow schema.types) = .ok rows ∧
      t.readRows = .ok rows := by
  obtain ⟨t, atI, holds⟩ := fills.holds resolved run
  obtain ⟨rows, cast, log⟩ := schema.rows_foldl PartitionedLog.empty fills.castable
  rw [PartitionedLog.rows_empty, List.nil_append] at log
  refine ⟨t, rows, named_eq_ok run added atI, cast, ?_⟩
  rw [holds.readRows fills.small.1 fills.small.2, Schema.logOf, log]

omit [Build] in
theorem readRows_named_two_names :
    letI := strictBuild
    let calls : List SharedCall := [.makeTable 2, .onTable (some 0) (.addColumn "a" "int"),
      .manage (.add "t" (some 0)), .onNamed "t" (.append [⟨.int, (3 : Int32)⟩]), .makeTable 0,
      .manage (.add "u" (some 0)), .onTable (some 1) (.addColumn "b" "string"),
      .onNamed "u" (.append [⟨.int, (5 : Int32)⟩]), .manage (.drop "t")]
    ∃ left t, Run (Caught Fault.Catchable SharedCall.run) start calls left ∧ left.named "u" = .ok t ∧
      t.readRows = .ok [[⟨.int, (3 : Int32)⟩], [⟨.int, (5 : Int32)⟩]] := by
  let _ := strictBuild
  intro calls
  let schema : Schema := ⟨[("a", .int)], 2, by decide, by decide, by decide⟩
  have run : ∃ left, Run (Caught Fault.Catchable SharedCall.run) start calls left :=
    ⟨_, .call (Or.inl rfl) <| .call (Or.inl rfl) <| .call (Or.inl rfl) <| .call (Or.inl rfl) <|
      .call (Or.inl rfl) <| .call (Or.inl rfl) <| .call (Or.inl rfl) <| .call (Or.inl rfl) <|
      .call (Or.inl rfl) .start⟩
  obtain ⟨left, run⟩ := run
  have fills : Fills schema [.append [⟨.int, (3 : Int32)⟩], .append [⟨.int, (5 : Int32)⟩]]
      [.make 2, .on 0 (.addColumn "a" "int"), .on 0 (.append [⟨.int, (3 : Int32)⟩]), .make 0,
        .on 1 (.addColumn "b" "string"), .on 0 (.append [⟨.int, (5 : Int32)⟩])] 0 := by
    refine ⟨rfl, rfl, ?_, ?_, by decide⟩
    · simp [schema, Schema.Ordered, Schema.types, ColumnType.ordered_iff]
    · simp only [List.forall_mem_cons, List.not_mem_nil]
      exact ⟨⟨[⟨.int, (3 : Int32)⟩], rfl⟩, ⟨[⟨.int, (5 : Int32)⟩], rfl⟩, by simp⟩
  have added : Registry.Added (managed calls) "u" (some 0) := Registry.entries_eq_some_iff.mp rfl
  obtain ⟨t, rows, named, cast, read⟩ := readRows_named run rfl fills added
  cases cast
  exact ⟨left, t, run, named, read⟩

/-- The line that `print` writes for a table. -/
def infoLine (name : String) (schema : Schema) (rowCalls : List TableCall) : List Char :=
  "name: ".toList ++ name.toList ++ "\t#columns: ".toList ++ digits schema.columns.length ++
    "\t#rows: ".toList ++ digits (appended rowCalls).length ++
    "\t#chunks: ".toList ++ digits (schema.logOf rowCalls).segments.length ++
    "\tchunk size: ".toList ++ digits schema.chunkSize.toNat ++ ['\n']

theorem printTable_writes {manager : StorageManager} {tables : List Table} {name : String} {t : Table}
    (known : manager.getTable name = .ok (some i)) (atI : tables[i]? = some t)
    (holds : t.Holds schema (schema.logOf rowCalls)) (fills : Fills schema rowCalls onTables i) :
    Writes (manager.printTable tables name) (infoLine name schema rowCalls) := by
  obtain ⟨few, fewChunks⟩ := fills.small
  have columns : t.colCount.toNat = schema.columns.length := by
    rw [Table.colCount_toNat, holds.columnNames, schema.length_names, Nat.mod_eq_of_lt schema.few]
  have rows : t.rowCount.toNat = (appended rowCalls).length := by
    rw [holds.rowCount few, Schema.logOf, Schema.length_rows_foldl fills.castable]
  have chunks := holds.chunkCount_toNat fewChunks
  intro written
  unfold StorageManager.printTable infoLine
  rw [known]
  -- the texts between the numbers do not matter, and must not be unfolded
  generalize "name: ".toList = a, "\t#columns: ".toList = b, "\t#rows: ".toList = c,
    "\t#chunks: ".toList = d, "\tchunk size: ".toList = e
  simp only [Option.bind_some, atI, columns, rows, chunks, holds.chunkSize, put_mk, leftpad_zero,
    List.append_assoc]

/-- `print` writes one line for each name, in ascending order, with the numbers of columns, rows and chunks of
its table. -/
theorem printTables_run (history : String → Schema × List TableCall)
    (run : Run (Caught Fault.Catchable SharedCall.run) start calls left)
    (resolved : tableCallsOf calls = some onTables)
    (fills : ∀ name table, Registry.Added (managed calls) name table →
      ∃ i, table = some i ∧ Fills (history name).1 (history name).2 onTables i) :
    ∃ names : List String, names.Pairwise (· < ·) ∧
      (∀ name, name ∈ names ↔ ¬Registry.Free (managed calls) name) ∧
      Writes (left.manager.print left.tables)
        (names.flatMap (fun name => infoLine name (history name).1 (history name).2) ++ ['\n']) := by
  have entries := (parts_of_run run).1
  have names (name : String) : name ∈ left.manager.tableNames ↔ ¬Registry.Free (managed calls) name :=
    StorageManager.mem_tableNames.trans (StorageManager.hasTable_of_entries entries)
  refine ⟨left.manager.tableNames, left.manager.pairwise_tableNames, names, ?_⟩
  have lines : Writes (Outcome.loop (left.manager.printTable left.tables) left.manager.tableNames)
      (left.manager.tableNames.flatMap fun name => infoLine name (history name).1 (history name).2) := by
    refine Writes.loop _ fun name member => ?_
    obtain ⟨table, added⟩ : ∃ table, Registry.Added (managed calls) name table := by
      by_contra none
      exact (names name).mp member (Registry.free_iff.mpr (not_exists.mp none))
    obtain ⟨i, rfl, fillsI⟩ := fills name table added
    obtain ⟨t, atI, holds⟩ := fillsI.holds resolved run
    exact printTable_writes ((StorageManager.getTable_of_entries entries).mpr added) atI holds fillsI
  exact lines.andThen fun written => by simp

omit [Build] in
theorem printTables_run_two_names :
    letI := strictBuild
    let schema : Schema := ⟨[("a", .int)], 2, by decide, by decide, by decide⟩
    let append : TableCall := .append [⟨.int, (3 : Int32)⟩]
    let calls : List SharedCall := [.makeTable 2, .onTable (some 0) (.addColumn "a" "int"),
      .manage (.add "t" (some 0)), .manage (.add "s" (some 0)), .onNamed "t" append,
      .manage (.add "t" none)]
    ∃ left, ∃ names : List String, Run (Caught Fault.Catchable SharedCall.run) start calls left ∧
      names.Pairwise (· < ·) ∧
      (∀ name, name ∈ names ↔ ¬Registry.Free (managed calls) name) ∧
      Writes (left.manager.print left.tables) (names.flatMap (infoLine · schema [append]) ++ ['\n']) := by
  let _ := strictBuild
  intro schema append calls
  have run : ∃ left, Run (Caught Fault.Catchable SharedCall.run) start calls left :=
    ⟨_, .call (Or.inl rfl) <| .call (Or.inl rfl) <| .call (Or.inl rfl) <| .call (Or.inl rfl) <|
      .call (Or.inl rfl) <| .call (Or.inr ⟨_, by decide, rfl⟩) .start⟩
  obtain ⟨left, run⟩ := run
  have fills (name : String) (table : TablePtr) (added : Registry.Added (managed calls) name table) :
      ∃ i, table = some i ∧ Fills schema [append] [.make 2, .on 0 (.addColumn "a" "int"),
        .on 0 append] i := by
    have entry := Registry.entries_eq_some_iff.mpr added
    have entries : Registry.entries (managed calls) =
        Function.update (Function.update (fun _ => none) "t" (some (some 0))) "s" (some (some 0)) := rfl
    rw [entries, Function.update_apply, Function.update_apply] at entry
    refine ⟨0, by split_ifs at entry <;> simp_all, rfl, rfl, ?_, ?_, by decide⟩
    · simp [schema, Schema.Ordered, Schema.types, ColumnType.ordered_iff]
    · simp only [List.forall_mem_cons, List.not_mem_nil]
      exact ⟨⟨[⟨.int, (3 : Int32)⟩], rfl⟩, by simp⟩
  obtain ⟨names, sorted, free, writes⟩ := printTables_run (fun _ => (schema, [append])) run rfl fills
  exact ⟨left, names, run, sorted, free, writes⟩

end SharedTables

end Opossum

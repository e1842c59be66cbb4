import Mathlib.Order.Compare
import Opossum.Foundation.Decimal
import Opossum.Foundation.OStream
import Opossum.Foundation.Registry
import Opossum.Foundation.Run
import Opossum.Storage.Table
import Std.Data.TreeMap

/-!
# The tables that are known by name

Whatever calls the manager has served, a name gives the first table that was added under it since it was last
dropped. A call that is refused changes nothing.
-/

namespace Opossum

open Decimal OStream

/-- A `std::shared_ptr<Table>`: null, or the number of a table. -/
abbrev TablePtr := Option Nat

/-- `_tables` is a `std::map`. -/
structure StorageManager where
  tables : Std.TreeMap String TablePtr

namespace StorageManager

def empty : StorageManager := ⟨∅⟩

def hasTable (manager : StorageManager) (name : String) : Bool := manager.tables.contains name

def addTable (manager : StorageManager) (name : String) (table : TablePtr) : Outcome Fault StorageManager :=
  Outcome.ofExcept manager ((assert (!manager.hasTable name) ("Table '" ++ name ++ "' already exists!")).map
    fun _ => ⟨manager.tables.insert name table⟩)

def dropTable (manager : StorageManager) (name : String) : Outcome Fault StorageManager :=
  if manager.tables.contains name then
    .returned ⟨manager.tables.erase name⟩
  else
    .stopped (.runtimeError "Table does not exist!") manager

def getTable (manager : StorageManager) (name : String) : Except Fault TablePtr :=
  match manager.tables[name]? with
  | some table => .ok table
  | none => .error .outOfRange

def tableNames (manager : StorageManager) : List String :=
  manager.tables.foldl (fun names name _ => names ++ [name]) []

/-- The calls that change the manager. `reset` moves a new one over it. -/
def run : RegistryCall String TablePtr → StorageManager → Outcome Fault StorageManager
  | .add name table, manager => manager.addTable name table
  | .drop name, manager => manager.dropTable name
  | .clear, _ => .returned empty

/-- One round of the loop in `print`, given the tables that the pointers point to. -/
def printTable (manager : StorageManager) (tables : List Table) (name : String) (out : OStream) :
    Outcome Fault OStream :=
  match manager.getTable name with
  | .error fault => .stopped fault out
  | .ok table =>
    let out := (out.put "name: ".toList).put name.toList
    match table.bind fun i => tables[i]? with
    | none => .stopped .undefined out
    | some table =>
      let out := (out.put "\t#columns: ".toList).put (digits table.colCount.toNat)
      let out := (out.put "\t#rows: ".toList).put (digits table.rowCount.toNat)
      let out := (out.put "\t#chunks: ".toList).put (digits table.chunkCount.toNat)
      .returned (((out.put "\tchunk size: ".toList).put (digits table.chunkSize.toNat)).put ['\n'])

def print (manager : StorageManager) (tables : List Table) (out : OStream) : Outcome Fault OStream :=
  (Outcome.loop (manager.printTable tables) manager.tableNames out).andThen fun out => .returned out.endl

/-- A call is refused when the name is taken, or when there is nothing to drop. -/
inductive Refuses (manager : StorageManager) : RegistryCall String TablePtr → Fault → Prop
  | add {name table} : (manager.tables[name]?).isSome →
      manager.Refuses (.add name table) (.logicError ("Table '" ++ name ++ "' already exists!"))
  | drop {name} : manager.tables[name]? = none →
      manager.Refuses (.drop name) (.runtimeError "Table does not exist!")

variable {manager left : StorageManager} {name : String} {table : TablePtr}
  {call : RegistryCall String TablePtr}

theorem hasTable_iff : manager.hasTable name = true ↔ (manager.tables[name]?).isSome := by
  rw [hasTable, Std.TreeMap.contains_iff_mem, Std.TreeMap.mem_iff_isSome_getElem?]

theorem getTable_eq_ok : manager.getTable name = .ok table ↔ manager.tables[name]? = some table := by
  unfold getTable
  cases manager.tables[name]? <;> simp

theorem getTable_eq_error {fault : Fault} :
    manager.getTable name = .error fault ↔ manager.tables[name]? = none ∧ fault = .outOfRange := by
  unfold getTable
  cases manager.tables[name]? <;> simp [eq_comm]

theorem tableNames_eq : manager.tableNames = manager.tables.keys := by
  have collect (names more : List String) : more.foldl (fun names name => names ++ [name]) names =
      names ++ more := by
    induction more generalizing names with
    | nil => simp
    | cons name more ih => rw [List.foldl_cons, ih, List.append_assoc, List.singleton_append]
  rw [tableNames, Std.TreeMap.foldl_eq_foldl_keys (f := fun names name => names ++ [name]), collect,
    List.nil_append]

theorem mem_tableNames : name ∈ manager.tableNames ↔ manager.hasTable name = true := by
  rw [tableNames_eq, Std.TreeMap.mem_keys, hasTable, Std.TreeMap.contains_iff_mem]

theorem pairwise_tableNames (manager : StorageManager) : manager.tableNames.Pairwise (· < ·) := by
  rw [tableNames_eq]
  exact Std.TreeMap.ordered_keys.imp compare_lt_iff_lt.mp

/-- The only way for a call to stop. -/
theorem run_eq_stopped {fault : Fault} :
    run call manager = .stopped fault left ↔ manager.Refuses call fault ∧ left = manager := by
  cases call with
  | add name table =>
    rw [run, addTable]
    by_cases known : manager.hasTable name = true
    · rw [known]
      constructor
      · intro stopped
        cases stopped
        exact ⟨.add (hasTable_iff.mp known), rfl⟩
      · rintro ⟨refuses, rfl⟩
        cases refuses
        rfl
    · rw [Bool.eq_false_iff.mpr known]
      refine iff_of_false nofun ?_
      rintro ⟨refuses, rfl⟩
      cases refuses with
      | add taken => exact known (hasTable_iff.mpr taken)
  | drop name =>
    rw [run, dropTable, ← hasTable]
    by_cases known : manager.hasTable name = true
    · rw [if_pos known]
      refine iff_of_false nofun ?_
      rintro ⟨refuses, rfl⟩
      cases refuses with
      | drop missing => simp [hasTable_iff, missing] at known
    · rw [if_neg known]
      constructor
      · intro stopped
        cases stopped
        exact ⟨.drop (by simpa [hasTable_iff] using known), rfl⟩
      · rintro ⟨refuses, rfl⟩
        cases refuses
        rfl
  | clear => exact iff_of_false nofun fun both => nomatch both.1

/-- One call on the manager is one call on the registry. -/
theorem tables_left (manager : StorageManager) (call : RegistryCall String TablePtr) (name : String) :
    (run call manager).left.tables[name]? = Registry.step (fun name => manager.tables[name]?) call name := by
  cases call with
  | add other table =>
    rw [run, addTable, Registry.step]
    by_cases known : manager.hasTable other = true
    · rw [known, if_pos (hasTable_iff.mp known)]
      rfl
    · rw [Bool.eq_false_iff.mpr known, if_neg (mt hasTable_iff.mpr known), Function.update_apply]
      simp only [Bool.not_false, assert_true, Except.map, Outcome.ofExcept, Outcome.left_returned,
        Std.TreeMap.getElem?_insert, Std.compare_eq_iff_eq, eq_comm (a := name)]
  | drop other =>
    rw [run, dropTable, ← hasTable, Registry.step, Function.update_apply]
    by_cases known : manager.hasTable other = true
    · rw [if_pos known]
      simp only [Outcome.left_returned, Std.TreeMap.getElem?_erase, Std.compare_eq_iff_eq,
        eq_comm (a := name)]
    · rw [if_neg known, Outcome.left_stopped]
      split
      · rename_i same
        subst same
        simpa [hasTable_iff] using known
      · rfl
  | clear => simp [run, empty, Registry.step]

theorem caught (manager : StorageManager) (call : RegistryCall String TablePtr) :
    Caught Fault.Catchable run manager call (run call manager).left := by
  cases ended : run call manager with
  | returned left => exact Or.inl ended
  | stopped fault left =>
    refine Or.inr ⟨fault, ?_, ended⟩
    cases (run_eq_stopped.mp ended).1 <;> simp [Fault.Catchable]

variable {calls : List (RegistryCall String TablePtr)}

theorem exists_run (calls : List (RegistryCall String TablePtr)) :
    ∃ manager, Run (Caught Fault.Catchable run) empty calls manager ∧
      ∀ name, manager.tables[name]? = Registry.entries calls name := by
  have initial (name : String) : empty.tables[name]? = none := Std.TreeMap.getElem?_emptyc
  refine Run.exists_simulating (fun (manager : StorageManager) entries =>
    ∀ name, manager.tables[name]? = entries name)
    Registry.step (fun pre call post manager _ same => ?_) initial
  refine ⟨_, manager.caught call, fun name => ?_⟩
  rw [tables_left, List.foldl_append, funext same]
  rfl

theorem entries_of_run (served : Run (Caught Fault.Catchable run) empty calls manager) (name : String) :
    manager.tables[name]? = Registry.entries calls name := by
  obtain ⟨manager', served', entries⟩ := exists_run calls
  obtain rfl := Run.functional Caught.functional served served'
  exact entries name

theorem free_of_entries (entries : ∀ name, manager.tables[name]? = Registry.entries calls name) :
    manager.tables[name]? = none ↔ Registry.Free calls name := by
  rw [entries, Registry.free_iff, Option.eq_none_iff_forall_ne_some]
  exact forall_congr' fun table => not_congr Registry.entries_eq_some_iff

theorem hasTable_of_entries (entries : ∀ name, manager.tables[name]? = Registry.entries calls name) :
    manager.hasTable name = true ↔ ¬Registry.Free calls name := by
  rw [hasTable_iff, ← free_of_entries entries, Option.isSome_iff_ne_none]

theorem getTable_of_entries (entries : ∀ name, manager.tables[name]? = Registry.entries calls name) :
    manager.getTable name = .ok table ↔ Registry.Added calls name table := by
  rw [getTable_eq_ok, entries, Registry.entries_eq_some_iff]

/-- Whatever calls the manager has served: a name gives the first table that was added under it since it was
last dropped, the names are listed in ascending order, and the next call is refused, and changes nothing,
exactly when it adds a table under a name in use or drops one that is not. -/
theorem entries_run (calls : List (RegistryCall String TablePtr)) :
    ∃ manager, Run (Caught Fault.Catchable run) empty calls manager ∧
      (∀ name table, manager.getTable name = .ok table ↔ Registry.Added calls name table) ∧
      (∀ name, manager.hasTable name = false ↔ Registry.Free calls name) ∧
      manager.tableNames.Pairwise (· < ·) ∧ (∀ name, name ∈ manager.tableNames ↔ ¬Registry.Free calls name) ∧
      (∀ name table, manager.addTable name table =
        .stopped (.logicError ("Table '" ++ name ++ "' already exists!")) manager ↔
          ¬Registry.Free calls name) ∧
      ∀ name, manager.dropTable name = .stopped (.runtimeError "Table does not exist!") manager ↔
        Registry.Free calls name := by
  obtain ⟨manager, served, entries⟩ := exists_run calls
  refine ⟨manager, served, fun name table => getTable_of_entries entries, fun name => ?_,
    manager.pairwise_tableNames, fun name => mem_tableNames.trans (hasTable_of_entries entries),
    fun name table => ?_, fun name => ?_⟩
  · rw [← Bool.not_eq_true, hasTable_of_entries entries, not_not]
  · show run (.add name table) manager = _ ↔ _
    rw [run_eq_stopped, and_iff_left rfl, ← hasTable_of_entries entries, hasTable_iff]
    constructor
    · rintro ⟨known⟩
      exact known
    · exact .add
  · show run (.drop name) manager = _ ↔ _
    rw [run_eq_stopped, and_iff_left rfl, ← free_of_entries entries]
    constructor
    · rintro ⟨⟩
      assumption
    · exact .drop

end StorageManager

end Opossum

import Opossum.Storage.BaseColumn

namespace Opossum

/-- `Chunk`. The columns are distinct objects, so that writing one of them changes no other. -/
structure Chunk where
  columns : List BaseColumn

namespace Chunk

def empty : Chunk := ⟨[]⟩

def colCount (c : Chunk) : UInt16 := UInt16.ofNat c.columns.length

/-- The size of the first column, cut to 32 bits. -/
def size (c : Chunk) : UInt32 :=
  if c.colCount = 0 then 0
  else match c.columns with
    | [] => 0
    | column :: _ => UInt32.ofNat column.size

/-- `add_column` of a possibly null pointer, which it dereferences. -/
def addColumn (c : Chunk) (column : Option BaseColumn) : Outcome Fault Chunk :=
  match column with
  | none => .stopped .undefined c
  | some column =>
    if column.size = c.size.toNat ∨ c.columns.length = 0 then
      .returned ⟨c.columns ++ [column]⟩
    else
      .stopped (.logicError "Column size does not match chunk size!") c

/-- The number of entries of the first column, whatever its size. -/
def firstColumnSize (c : Chunk) : Nat :=
  match c.columns with
  | [] => 0
  | column :: _ => column.size

theorem colCount_toNat (c : Chunk) : c.colCount.toNat = c.columns.length % 2 ^ 16 := by
  simp [colCount]

/-- Both conversions of `size()` in one formula. -/
theorem size_toNat (c : Chunk) :
    c.size.toNat = if c.columns.length % 2 ^ 16 = 0 then 0 else c.firstColumnSize % 2 ^ 32 := by
  have zero : c.colCount = 0 ↔ c.columns.length % 2 ^ 16 = 0 := by
    rw [← UInt16.toNat_inj, colCount_toNat]
    rfl
  unfold size firstColumnSize
  simp only [zero]
  split
  · rfl
  · cases c.columns <;> simp

theorem firstColumnSize_eq {c : Chunk} {n : Nat} (nonempty : c.columns ≠ [])
    (sizes : ∀ column ∈ c.columns, column.size = n) : c.firstColumnSize = n := by
  unfold firstColumnSize
  split
  · contradiction
  · rename_i column rest same
    exact sizes column (same ▸ List.mem_cons_self ..)

theorem size_toNat_eq {c : Chunk} {n : Nat} (nonempty : c.columns ≠ [])
    (few : c.columns.length < 2 ^ 16) (sizes : ∀ column ∈ c.columns, column.size = n)
    (small : n < 2 ^ 32) : c.size.toNat = n := by
  have positive := List.length_pos_iff.mpr nonempty
  rw [size_toNat, firstColumnSize_eq nonempty sizes, if_neg (by omega), Nat.mod_eq_of_lt small]

theorem size_toNat_eq_zero {c : Chunk} (sizes : ∀ column ∈ c.columns, column.size = 0) :
    c.size.toNat = 0 := by
  rw [size_toNat]
  split
  · rfl
  · rename_i notZero
    rw [firstColumnSize_eq (fun empty => notZero (by simp [empty])) sizes]
    rfl

theorem addColumn_eq_returned {c left : Chunk} {column : BaseColumn} :
    c.addColumn (some column) = .returned left ↔
      (column.size = c.size.toNat ∨ c.columns = []) ∧ left = ⟨c.columns ++ [column]⟩ := by
  simp only [addColumn, List.length_eq_zero_iff]
  split <;> simp_all [eq_comm]

/-- The assertion fails before anything is written. -/
theorem addColumn_eq_stopped {c left : Chunk} {column : BaseColumn} {fault : Fault}
    (run : c.addColumn (some column) = .stopped fault left) :
    left = c ∧ fault = .logicError "Column size does not match chunk size!" ∧
      column.size ≠ c.size.toNat ∧ c.columns ≠ [] := by
  simp only [addColumn, List.length_eq_zero_iff] at run
  split at run
  · cases run
  · rename_i rejected
    cases run
    exact ⟨rfl, rfl, fun same => rejected (Or.inl same), fun empty => rejected (Or.inr empty)⟩

theorem firstColumnSize_append_singleton (columns : List BaseColumn) (column : BaseColumn) :
    firstColumnSize ⟨columns ++ [column]⟩ =
      if columns = [] then column.size else firstColumnSize ⟨columns⟩ := by
  cases columns <;> simp [firstColumnSize]

/-- The chunk that `create_new_chunk` builds for these types. -/
def fresh (types : List ColumnType) : Chunk := ⟨types.map fun T => .value T ⟨[]⟩⟩

theorem fresh_sizes (types : List ColumnType) : ∀ column ∈ (fresh types).columns, column.size = 0 := by
  intro column member
  obtain ⟨T, _, rfl⟩ := List.mem_map.mp member
  rfl

def append [Build] (c : Chunk) (values : List AllTypeVariant) : Outcome Fault Chunk :=
  if values.length = c.columns.length then
    (Outcome.each (fun value column => column.append value) values c.columns).within mk
  else
    .stopped (.logicError "Number of given values does not match number of columns!") c

def getColumn (c : Chunk) (id : Nat) : Except Fault BaseColumn :=
  match c.columns[id]? with
  | some column => .ok column
  | none => .error .outOfRange

theorem getColumn_eq_ok {c : Chunk} {id : Nat} {column : BaseColumn} :
    c.getColumn id = .ok column ↔ c.columns[id]? = some column := by
  unfold getColumn
  cases c.columns[id]? <;> simp

theorem catchable_of_getColumn {c : Chunk} {id : Nat} {fault : Fault}
    (missing : c.getColumn id = .error fault) : fault.Catchable := by
  unfold getColumn at missing
  split at missing
  · cases missing
  · cases missing
    simp [Fault.Catchable]

/-- One row as it is read through `col_count`, `get_column` and `operator[]`. -/
def readRow [Build] (c : Chunk) (offset : Nat) : Except Fault (List AllTypeVariant) :=
  (List.range c.colCount.toNat).mapM fun id => do
    let column ← c.getColumn id
    column.entry offset

def readRows [Build] (c : Chunk) : Except Fault (List (List AllTypeVariant)) :=
  (List.range c.size.toNat).mapM c.readRow

end Chunk

end Opossum

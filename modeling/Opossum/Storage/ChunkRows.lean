import Opossum.Storage.ChunkShape
import Opossum.Storage.Compression

namespace Opossum

abbrev Row := List AllTypeVariant

/-- The row that a table stores for the given values: what `type_cast` makes of each of them. -/
def castRow [Build] (types : List ColumnType) (values : List AllTypeVariant) : Except Fault Row :=
  if values.length = types.length then
    (types.zip values).mapM fun cell => castTo cell.1 cell.2
  else
    .error (.logicError "Number of given values does not match number of columns!")

variable [Build]

theorem castRow_eq_ok {types : List ColumnType} {values : List AllTypeVariant} {row : Row} :
    castRow types values = .ok row ↔ values.length = types.length ∧
      List.Forall₂ (fun cell x => castTo cell.1 cell.2 = .ok x) (types.zip values) row := by
  unfold castRow
  split
  · rename_i same
    rw [Except.mapM_eq_ok, and_iff_right same]
  · rename_i different
    simp [different]

namespace Chunk

/-- The chunk has columns of the given types that hold the given rows, and dictionaries only when it
is full. -/
structure Holds (types : List ColumnType) (capacity : Nat) (c : Chunk) (rows : List Row) : Prop where
  types : c.columns.map BaseColumn.elementType = types
  sizes : ∀ column ∈ c.columns, column.size = rows.length
  entries : ∀ (r : Nat) row, rows[r]? = some row →
    List.Forall₂ (fun column x => column.entry r = .ok x) c.columns row
  full : ∀ column ∈ c.columns, column.isValue = false → capacity ≠ 0 ∧ rows.length = capacity

variable {types : List ColumnType} {capacity : Nat} {c : Chunk} {rows : List Row}

theorem Holds.length_columns (holds : c.Holds types capacity rows) :
    c.columns.length = types.length := by
  rw [← holds.types, List.length_map]

theorem Holds.elementType (holds : c.Holds types capacity rows) {i : Nat} {column : BaseColumn}
    (found : c.columns[i]? = some column) : types[i]? = some column.elementType := by
  rw [← holds.types, List.getElem?_map, found, Option.map_some]

theorem Holds.size_toNat (holds : c.Holds types capacity rows) (some : 0 < types.length)
    (few : types.length < 2 ^ 16) (small : rows.length < 2 ^ 32) : c.size.toNat = rows.length := by
  have length := holds.length_columns
  exact size_toNat_eq (List.length_pos_iff.mp (by omega)) (by omega) holds.sizes small

theorem append_extends_all {left : Chunk} {values : List AllTypeVariant}
    (run : c.append values = .returned left) :
    List.Forall₂ BaseColumn.Extends c.columns left.columns := by
  obtain ⟨_, length, _⟩ := append_eq_returned.mp run
  refine Pointwise.of_getElem? length.symm fun i column column' found found' => ?_
  obtain ⟨column'', atI, extends_⟩ := append_extends run rfl i column found
  obtain rfl := Option.some.inj (atI.symm.trans found')
  exact extends_

theorem entries_of_extends {left : Chunk} (extended : List.Forall₂ BaseColumn.Extends c.columns left.columns)
    {r : Nat} (inside : ∀ column ∈ c.columns, r < column.size) {row : Row}
    (entries : List.Forall₂ (fun column x => column.entry r = .ok x) c.columns row) :
    List.Forall₂ (fun column x => column.entry r = .ok x) left.columns row := by
  have same := Pointwise.imp_mem (S := fun column column' => column'.entry r = column.entry r) extended
    fun column column' member grown => grown.entry r (inside column member)
  exact Pointwise.trans_imp same.flip entries fun column' column x same read => same.trans read

/-- An append that returns leaves value columns and the cast row at the next offset. -/
theorem entries_of_append {left : Chunk} {values : List AllTypeVariant} {row : Row} {n : Nat}
    (run : c.append values = .returned left) (typed : c.columns.map BaseColumn.elementType = types)
    (sizes : ∀ column ∈ c.columns, column.size = n) (cast : castRow types values = .ok row) :
    List.Forall₂ (fun column x => column.isValue = true ∧ column.entry n = .ok x) left.columns row := by
  obtain ⟨length, cells⟩ := castRow_eq_ok.mp cast
  obtain ⟨same, leftLength, calls⟩ := append_eq_returned.mp run
  have cellsLength := cells.length_eq
  rw [List.length_zip] at cellsLength
  refine Pointwise.of_getElem? (by omega) fun i column' x atColumn' atX => ?_
  obtain ⟨inside, _⟩ := List.getElem?_eq_some_iff.mp atColumn'
  have atColumn := List.getElem?_eq_getElem (l := c.columns) (i := i) (by omega)
  have atValue := List.getElem?_eq_getElem (l := values) (i := i) (by omega)
  obtain ⟨column'', taken, found⟩ := calls i _ _ atValue atColumn
  obtain rfl := Option.some.inj (found.symm.trans atColumn')
  obtain ⟨grown, _, isValue, x', cast', written⟩ := BaseColumn.append_returned taken
  have atT : types[i]? = some column''.elementType := by
    rw [← typed, List.getElem?_map, atColumn, Option.map_some, grown.sameType]
  obtain ⟨⟨T, value⟩, atCell, castX⟩ := Pointwise.getElem?_right cells atX
  obtain ⟨atT', atValue'⟩ := List.getElem?_zip_eq_some.mp atCell
  obtain rfl := Option.some.inj (atT.symm.trans atT')
  obtain rfl := Option.some.inj (atValue.symm.trans atValue')
  obtain rfl := Except.ok.inj (cast'.symm.trans castX)
  rw [sizes _ (List.getElem_mem _)] at written
  exact ⟨isValue, written⟩

/-- A chunk of value columns takes every row that can be cast. -/
theorem append_castable (typed : c.columns.map BaseColumn.elementType = types)
    (writable : ∀ column ∈ c.columns, column.isValue = true) {values : List AllTypeVariant} {row : Row}
    (cast : castRow types values = .ok row) : ∃ left, c.append values = .returned left := by
  obtain ⟨length, cells⟩ := castRow_eq_ok.mp cast
  have columnsLength : c.columns.length = types.length := by rw [← typed, List.length_map]
  cases run : c.append values with
  | returned left => exact ⟨left, rfl⟩
  | stopped fault left =>
    exfalso
    rcases append_eq_stopped run with ⟨different, _⟩ | ⟨_, k, value, column, atValue, atColumn, refused, _⟩
    · exact different (by omega)
    · have atT : types[k]? = some column.elementType := by
        rw [← typed, List.getElem?_map, atColumn, Option.map_some]
      obtain ⟨x, _, castAt⟩ := Pointwise.getElem?_left (a := (column.elementType, value)) cells
        (List.getElem?_zip_eq_some.mpr ⟨atT, atValue⟩)
      obtain ⟨x, cast, _⟩ := Except.map_eq_ok.mp castAt
      exact refused ⟨writable column (List.mem_of_getElem? atColumn), x, cast⟩

theorem Holds.append (holds : c.Holds types capacity rows)
    (room : ¬(capacity ≠ 0 ∧ rows.length = capacity)) {values : List AllTypeVariant} {row : Row}
    (cast : castRow types values = .ok row) :
    ∃ left, c.append values = .returned left ∧ left.Holds types capacity (rows ++ [row]) := by
  have writable (column : BaseColumn) (member : column ∈ c.columns) : column.isValue = true := by
    by_contra dictionary
    exact room (holds.full column member (by simpa using dictionary))
  obtain ⟨left, run⟩ := append_castable holds.types writable cast
  have extended := append_extends_all run
  have written := entries_of_append run holds.types holds.sizes cast
  refine ⟨left, run, ?_, ?_, ?_, ?_⟩
  · rw [← holds.types]
    exact (Pointwise.map_eq_map extended fun _ _ grown => grown.sameType.symm).symm
  · intro column member
    rw [append_sizes run holds.sizes column member, List.length_append, List.length_singleton]
  · intro r row' found
    by_cases old : r < rows.length
    · rw [List.getElem?_append_left old] at found
      exact entries_of_extends extended (fun column member => holds.sizes column member ▸ old)
        (holds.entries r row' found)
    · obtain ⟨inside, _⟩ := List.getElem?_eq_some_iff.mp found
      rw [List.length_append, List.length_singleton] at inside
      obtain rfl : r = rows.length := by omega
      obtain rfl : row = row' := by simpa using found
      exact written.imp fun _ _ both => both.2
  · intro column member dictionary
    obtain ⟨x, _, isValue, _⟩ := Pointwise.mem_left written member
    rw [isValue] at dictionary
    cases dictionary

/-- Compressing a full chunk keeps its rows. -/
theorem Holds.compress (holds : c.Holds types capacity rows) (ordered : ∀ T ∈ types, T.Ordered)
    (finite : capacity ≠ 0) (full : rows.length = capacity) {new : Chunk}
    (made : List.Forall₂ BaseColumn.CompressesTo c.columns new.columns) :
    new.Holds types capacity rows := by
  have same := Pointwise.imp_mem made fun column column' member compressed =>
    compressed.sameContent (ordered column.elementType (holds.types ▸ List.mem_map_of_mem member))
  refine ⟨?_, ?_, ?_, fun _ _ _ => ⟨finite, full⟩⟩
  · rw [← holds.types]
    exact (Pointwise.map_eq_map same fun _ _ same => same.sameType.symm).symm
  · exact Table.compressesTo_sizes made holds.sizes
  · intro r row found
    obtain ⟨inside, _⟩ := List.getElem?_eq_some_iff.mp found
    have read := Pointwise.imp_mem (S := fun column column' => column'.entry r = column.entry r) same
      fun column column' member same => same.entry r (holds.sizes column member ▸ inside)
    exact Pointwise.trans_imp read.flip (holds.entries r row found) fun _ _ _ same read => same.trans read

theorem Holds.readRow (holds : c.Holds types capacity rows) (few : types.length < 2 ^ 16) {r : Nat}
    {row : Row} (found : rows[r]? = some row) : c.readRow r = .ok row := by
  have length := holds.length_columns
  have entries := holds.entries r row found
  have count : c.colCount.toNat = c.columns.length := by
    rw [colCount_toNat, Nat.mod_eq_of_lt (by omega)]
  rw [Chunk.readRow, Except.mapM_eq_ok, count]
  refine Pointwise.of_range entries.length_eq.symm fun id x atX => ?_
  obtain ⟨column, atColumn, read⟩ := Pointwise.getElem?_right entries atX
  rw [getColumn_eq_ok.mpr atColumn, Except.ok_bind, read]

theorem Holds.readRows (holds : c.Holds types capacity rows) (some : 0 < types.length)
    (few : types.length < 2 ^ 16) (small : rows.length < 2 ^ 32) : c.readRows = .ok rows := by
  rw [Chunk.readRows, Except.mapM_eq_ok, holds.size_toNat some few small]
  exact Pointwise.of_range rfl fun r row atRow => holds.readRow few atRow

theorem fresh_holds (types : List ColumnType) (capacity : Nat) :
    (fresh types).Holds types capacity [] := by
  refine ⟨?_, fresh_sizes types, by simp, ?_⟩
  · rw [fresh, List.map_map]
    exact List.map_id types
  · intro column member dictionary
    obtain ⟨T, _, rfl⟩ := List.mem_map.mp member
    cases dictionary

end Chunk

end Opossum

import Opossum.Foundation.Pointwise
import Opossum.Storage.DictionaryEncoding
import Opossum.Storage.Table

namespace Opossum

namespace BaseColumn

/-- The second column is the dictionary column made from the first one, a value column. -/
inductive CompressesTo : BaseColumn → BaseColumn → Prop
  | intro {T c d} : DictionaryColumn.new (some c) = .ok d → CompressesTo (value T c) (dictionary T d)

/-- Two columns that cannot be told apart by reading them. -/
structure SameContent [Build] (column other : BaseColumn) : Prop where
  sameType : other.elementType = column.elementType
  sameSize : other.size = column.size
  entry : ∀ r, r < column.size → other.entry r = column.entry r

theorem CompressesTo.sameType {column column' : BaseColumn} (made : column.CompressesTo column') :
    column'.elementType = column.elementType := by
  cases made
  rfl

theorem CompressesTo.isValue {column column' : BaseColumn} (made : column.CompressesTo column') :
    column.isValue = true ∧ column'.isValue = false := by
  cases made
  exact ⟨rfl, rfl⟩

theorem CompressesTo.sameSize {column column' : BaseColumn} (made : column.CompressesTo column') :
    column'.size = column.size ∧ 0 < column.size ∧ column.size < 2 ^ 32 - 1 := by
  obtain ⟨made⟩ := made
  obtain ⟨rfl, nonempty, small⟩ := DictionaryColumn.eq_encoded made
  exact ⟨DictionaryColumn.size_encoded _, List.length_pos_iff.mpr nonempty, small⟩

theorem CompressesTo.sameContent [Build] {column column' : BaseColumn}
    (made : column.CompressesTo column') (ordered : column.elementType.Ordered) :
    column.SameContent column' := by
  refine ⟨made.sameType, made.sameSize.1, fun r inside => ?_⟩
  obtain ⟨made⟩ := made
  rename_i T c d
  have : TotallyOrdered T.Elem := ordered
  have read := (DictionaryColumn.reads_new made).2 r inside
  rw [entry_value inside]
  simp [entry, read, Except.map]

theorem exists_compressesTo {column : BaseColumn} (isValue : column.isValue = true)
    (positive : 0 < column.size) (small : column.size < 2 ^ 32 - 1) :
    ∃ column', column.CompressesTo column' := by
  cases column with
  | value T c =>
    obtain ⟨d, made⟩ := DictionaryColumn.new_isOk_iff.mpr ⟨c, rfl, positive, small⟩
    exact ⟨_, .intro made⟩
  | dictionary T c => cases isValue

theorem newDictionaryColumn_eq_ok {column column' : BaseColumn} {T : ColumnType} :
    newDictionaryColumn column T = .ok column' ↔
      column.elementType = T ∧ column.CompressesTo column' := by
  rw [newDictionaryColumn, Except.map_eq_ok]
  constructor
  · rintro ⟨d, made, rfl⟩
    obtain ⟨c, cast, _⟩ := DictionaryColumn.new_isOk_iff.mp ⟨d, made⟩
    obtain rfl := asValueColumn_eq_some.mp cast
    rw [asValueColumn_value] at made
    exact ⟨rfl, .intro made⟩
  · rintro ⟨same, @⟨U, c, d, made⟩⟩
    obtain rfl : U = T := same
    exact ⟨d, by rw [asValueColumn_value, made], rfl⟩

theorem catchable_of_newDictionaryColumn {column : BaseColumn} {T : ColumnType} {fault : Fault}
    (thrown : newDictionaryColumn column T = .error fault) : fault.Catchable :=
  DictionaryColumn.catchable_of_new (Except.map_eq_error.mp thrown)

end BaseColumn

theorem Chunk.size_eq_of_compressesTo {old new : Chunk}
    (made : List.Forall₂ BaseColumn.CompressesTo old.columns new.columns) : new.size = old.size := by
  obtain ⟨olds⟩ := old
  obtain ⟨news⟩ := new
  have first : firstColumnSize ⟨news⟩ = firstColumnSize ⟨olds⟩ := by
    obtain _ | ⟨compressed, _⟩ := made
    · rfl
    · exact compressed.sameSize.1
  rw [← UInt32.toNat_inj, size_toNat, size_toNat, first, ← made.length_eq]

/-- Equally long columns of the given types. -/
structure Chunk.Shaped (types : List String) (rows : Nat) (c : Chunk) : Prop where
  columnType : ∀ (i : Nat) (column : BaseColumn), c.columns[i]? = some column →
    types[i]? = some column.elementType.typeString
  columnSize : ∀ column ∈ c.columns, column.size = rows
  rows_lt : rows < 2 ^ 32

namespace Table
variable [Build] {t : Table} {old : Chunk} {rows : Nat}

theorem compressColumn_eq_ok {new left : Chunk} {id : Nat} (shaped : old.Shaped t.columnTypes rows)
    (sizes : ∀ column ∈ new.columns, column.size = rows) (few : new.columns.length < 2 ^ 16) :
    t.compressColumn old new id = .ok left ↔ ∃ column column', old.columns[id]? = some column ∧
      column.CompressesTo column' ∧ left = ⟨new.columns ++ [column']⟩ := by
  unfold compressColumn Chunk.getColumn columnType
  cases found : old.columns[id]? with
  | none => simp [bind, Except.bind]
  | some column =>
    simp only [shaped.columnType id column found, makeSharedByColumnType_typeString, Except.bind_eq_ok,
      Except.map_eq_ok, Except.ok.injEq, exists_eq_left', exists_and_left,
        BaseColumn.newDictionaryColumn_eq_ok,
      true_and, Outcome.toExcept_eq_ok, exists_exists_and_eq_and, Option.some.injEq,
      Chunk.addColumn_eq_returned]
    refine exists_congr fun column' => and_congr_right fun made => and_iff_right ?_
    by_cases empty : new.columns = []
    · exact Or.inr empty
    · left
      rw [Chunk.size_toNat_eq empty few sizes shaped.rows_lt, made.sameSize.1,
        shaped.columnSize column (List.mem_of_getElem? found)]

omit [Build] in
theorem compressesTo_sizes {olds news : List BaseColumn}
    (made : List.Forall₂ BaseColumn.CompressesTo olds news)
    (sizes : ∀ column ∈ olds, column.size = rows) : ∀ column ∈ news, column.size = rows := by
  intro column member
  obtain ⟨source, fromOlds, compressed⟩ := Pointwise.mem_right made member
  rw [compressed.sameSize.1, sizes source fromOlds]

/-- The loop in `compress_chunk`, after `k` rounds. -/
theorem compressColumns_eq_ok (shaped : old.Shaped t.columnTypes rows)
    (few : old.columns.length < 2 ^ 16) {k : Nat} (inside : k ≤ old.columns.length) (new : Chunk) :
    (List.range k).foldlM (t.compressColumn old) Chunk.empty = .ok new ↔
      List.Forall₂ BaseColumn.CompressesTo (old.columns.take k) new.columns := by
  induction k generalizing new with
  | zero =>
    rw [List.range_zero, List.foldlM_nil, List.take_zero, List.forall₂_nil_left_iff]
    constructor
    · intro run
      cases run
      rfl
    · intro none
      exact congrArg Except.ok (by cases new; simp_all [Chunk.empty])
  | succ k ih =>
    have found := List.getElem?_eq_getElem (l := old.columns) (i := k) (by omega)
    have front : old.columns.take (k + 1) = old.columns.take k ++ [old.columns[k]] := by
      rw [List.take_add_one, found]
      rfl
    have round (mid : Chunk) (made : List.Forall₂ BaseColumn.CompressesTo (old.columns.take k) mid.columns)
        (left : Chunk) : t.compressColumn old mid k = .ok left ↔
          ∃ column', old.columns[k].CompressesTo column' ∧ left = ⟨mid.columns ++ [column']⟩ := by
      have length := made.length_eq
      rw [List.length_take] at length
      have sizes := compressesTo_sizes made fun column member =>
        shaped.columnSize column (List.mem_of_mem_take member)
      rw [compressColumn_eq_ok shaped sizes (by omega), found]
      simp
    rw [List.range_succ, List.foldlM_append, Except.bind_eq_ok, front,
      Pointwise.append_singleton_iff]
    simp only [List.foldlM_cons, List.foldlM_nil, bind_pure]
    constructor
    · rintro ⟨mid, run, last⟩
      have made := (ih (by omega) mid).mp run
      obtain ⟨column', compressed, rfl⟩ := (round mid made new).mp last
      exact ⟨mid.columns, column', rfl, made, compressed⟩
    · rintro ⟨columns, column', split, made, compressed⟩
      refine ⟨⟨columns⟩, (ih (by omega) _).mpr made, (round ⟨columns⟩ made new).mpr ?_⟩
      exact ⟨column', compressed, by cases new; simp_all⟩

/-- When `compress_chunk` gets as far as swapping, and with what. -/
theorem compressedChunk_eq_ok {id : ChunkID} (found : t.chunks[id.toNat]? = some old)
    (shaped : old.Shaped t.columnTypes rows) (few : old.columns.length < 2 ^ 16) {new : Chunk} :
    t.compressedChunk id = .ok new ↔ t.chunkSize ≠ 0 ∧ old.size = t.chunkSize ∧
      List.Forall₂ BaseColumn.CompressesTo old.columns new.columns := by
  have count : old.colCount.toNat = old.columns.length := by
    rw [Chunk.colCount_toNat, Nat.mod_eq_of_lt few]
  have loop := compressColumns_eq_ok shaped few (le_refl _) new
  rw [List.take_length] at loop
  unfold compressedChunk hasInfiniteChunkSize
  rw [getChunk_eq_ok.mpr found, Except.bind_eq_ok]
  simp only [Except.ok.injEq, exists_eq_left', assert_bind_eq_ok, count, loop, Bool.not_eq_true',
    decide_eq_false_iff_not, decide_eq_true_eq, ne_eq]

theorem compressChunk_eq_returned {id : ChunkID} {left : Table} :
    t.compressChunk id = .returned left ↔
      ∃ new, t.compressedChunk id = .ok new ∧ left = { t with chunks := t.chunks.set id.toNat new } := by
  rw [compressChunk, Outcome.ofExcept_eq_returned, Except.map_eq_ok]
  exact exists_congr fun new => and_congr_right fun _ => eq_comm

/-- Nothing is written before the swap. -/
theorem compressChunk_eq_stopped {id : ChunkID} {left : Table} {fault : Fault}
    (run : t.compressChunk id = .stopped fault left) :
    left = t ∧ t.compressedChunk id = .error fault := by
  rw [compressChunk, Outcome.ofExcept_eq_stopped, Except.map_eq_error] at run
  exact ⟨run.2.symm, run.1⟩

theorem catchable_of_compressColumn {new : Chunk} {id : Nat} {fault : Fault}
    (shaped : old.Shaped t.columnTypes rows) (thrown : t.compressColumn old new id = .error fault) :
    fault.Catchable := by
  unfold compressColumn at thrown
  rcases Except.bind_eq_error.mp thrown with missing | ⟨column, found, thrown⟩
  · exact Chunk.catchable_of_getColumn missing
  rcases Except.bind_eq_error.mp thrown with untyped | ⟨type, typed, thrown⟩
  · exact catchable_of_columnType untyped
  have declared := shaped.columnType id column (Chunk.getColumn_eq_ok.mp found)
  obtain rfl := Option.some.inj (declared.symm.trans (columnType_eq_ok.mp typed))
  rw [makeSharedByColumnType_typeString] at thrown
  rcases Except.bind_eq_error.mp thrown with unmade | ⟨made, same, thrown⟩
  · exact BaseColumn.catchable_of_newDictionaryColumn (Except.map_eq_error.mp unmade)
  obtain ⟨column', _, rfl⟩ := Except.map_eq_ok.mp same
  cases added : new.addColumn (some column') with
  | returned left => simp [added] at thrown
  | stopped fault' left =>
    obtain ⟨_, rfl, _⟩ := Chunk.addColumn_eq_stopped added
    rw [added, Outcome.toExcept_stopped] at thrown
    cases thrown
    simp [Fault.Catchable]

theorem catchable_of_compressedChunk {id : ChunkID} {fault : Fault}
    (shaped : ∀ chunk ∈ t.chunks, ∃ rows, chunk.Shaped t.columnTypes rows)
    (thrown : t.compressedChunk id = .error fault) : fault.Catchable := by
  unfold compressedChunk at thrown
  rcases Except.bind_eq_error.mp thrown with missing | ⟨chunk, found, thrown⟩
  · exact catchable_of_getChunk missing
  obtain ⟨rows, shaped⟩ := shaped chunk (List.mem_of_getElem? (getChunk_eq_ok.mp found))
  rcases Except.bind_eq_error.mp thrown with infinite | ⟨_, _, thrown⟩
  · exact catchable_of_assert infinite
  rcases Except.bind_eq_error.mp thrown with notFull | ⟨_, _, thrown⟩
  · exact catchable_of_assert notFull
  obtain ⟨new, id, _, thrown⟩ := Except.foldlM_eq_error thrown
  exact catchable_of_compressColumn shaped thrown

/-- A table whose chunks all look like its schema. -/
structure Regular (t : Table) : Prop where
  someColumn : 0 < t.columnNames.length
  fewColumns : t.columnNames.length < 2 ^ 16
  colCount : ∀ chunk ∈ t.chunks, chunk.columns.length = t.columnNames.length
  shaped : ∀ chunk ∈ t.chunks, ∃ rows, chunk.Shaped t.columnTypes rows
  ordered : ∀ chunk ∈ t.chunks, ∀ column ∈ chunk.columns, column.elementType.Ordered

omit [Build] in
theorem Regular.columns_ne_nil (regular : t.Regular) {chunk : Chunk} (member : chunk ∈ t.chunks) :
    chunk.columns ≠ [] :=
  List.length_pos_iff.mp (regular.colCount chunk member ▸ regular.someColumn)

omit [Build] in
/-- In a regular table a chunk reports the size of each of its columns. -/
theorem Regular.size_eq_iff (regular : t.Regular) {chunk : Chunk} (member : chunk ∈ t.chunks)
    {n : UInt32} : chunk.size = n ↔ ∀ column ∈ chunk.columns, column.size = n.toNat := by
  obtain ⟨rows, shaped⟩ := regular.shaped chunk member
  have nonempty := regular.columns_ne_nil member
  have size := Chunk.size_toNat_eq nonempty (regular.colCount chunk member ▸ regular.fewColumns)
    shaped.columnSize shaped.rows_lt
  rw [← UInt32.toNat_inj, size]
  constructor
  · intro same column inChunk
    rw [shaped.columnSize column inChunk, same]
  · intro sizes
    obtain ⟨column, inChunk⟩ := List.exists_mem_of_ne_nil _ nonempty
    rw [← shaped.columnSize column inChunk, sizes column inChunk]

theorem Regular.compressedChunk_eq_ok (regular : t.Regular) {id : ChunkID} {new : Chunk} :
    t.compressedChunk id = .ok new ↔ ∃ old, t.chunks[id.toNat]? = some old ∧ t.chunkSize ≠ 0 ∧
      old.size = t.chunkSize ∧ List.Forall₂ BaseColumn.CompressesTo old.columns new.columns := by
  cases found : t.chunks[id.toNat]? with
  | none =>
    unfold compressedChunk getChunk
    simp [found, bind, Except.bind]
  | some old =>
    have member := List.mem_of_getElem? found
    obtain ⟨rows, shaped⟩ := regular.shaped old member
    have few : old.columns.length < 2 ^ 16 := regular.colCount old member ▸ regular.fewColumns
    rw [Table.compressedChunk_eq_ok found shaped few]
    simp

omit [Build] in
theorem chunkSize_lt_iff : t.chunkSize < 2 ^ 32 - 1 ↔ t.chunkSize.toNat < 2 ^ 32 - 1 := by
  rw [UInt32.lt_iff_toNat_lt]
  rfl

theorem Regular.exists_compressedChunk_iff (regular : t.Regular) (fewChunks : t.chunks.length < 2 ^ 32)
    {id : ChunkID} :
    (∃ new, t.compressedChunk id = .ok new) ↔ id < t.chunkCount ∧ 0 < t.chunkSize ∧
      t.chunkSize < 2 ^ 32 - 1 ∧ ∀ chunk, t.chunks[id.toNat]? = some chunk →
        ∀ column ∈ chunk.columns, column.size = t.chunkSize.toNat ∧ column.isValue = true := by
  have count : id < t.chunkCount ↔ id.toNat < t.chunks.length := by
    rw [UInt32.lt_iff_toNat_lt, chunkCount, UInt32.toNat_ofNat', Nat.mod_eq_of_lt fewChunks]
  have positive : 0 < t.chunkSize ↔ 0 < t.chunkSize.toNat := UInt32.lt_iff_toNat_lt
  have finite : t.chunkSize ≠ 0 ↔ 0 < t.chunkSize.toNat := by
    rw [Nat.pos_iff_ne_zero, ne_eq, ne_eq, toNat_eq_zero_iff]
  rw [count, positive, chunkSize_lt_iff]
  constructor
  · rintro ⟨new, made⟩
    obtain ⟨old, found, notInfinite, full, made⟩ := regular.compressedChunk_eq_ok.mp made
    have member := List.mem_of_getElem? found
    have sizes := (regular.size_eq_iff member).mp full
    have compressed {column : BaseColumn} (inside : column ∈ old.columns) :
        column.isValue = true ∧ column.size < 2 ^ 32 - 1 := by
      obtain ⟨column', _, compressed⟩ := Pointwise.mem_left made inside
      exact ⟨compressed.isValue.1, compressed.sameSize.2.2⟩
    obtain ⟨first, inside⟩ := List.exists_mem_of_ne_nil _ (regular.columns_ne_nil member)
    refine ⟨(List.getElem?_eq_some_iff.mp found).1, finite.mp notInfinite, ?_, ?_⟩
    · exact sizes first inside ▸ (compressed inside).2
    · intro chunk found'
      obtain rfl := Option.some.inj (found.symm.trans found')
      exact fun column inside => ⟨sizes column inside, (compressed inside).1⟩
  · rintro ⟨inside, notInfinite, small, full⟩
    have found := List.getElem?_eq_getElem inside
    have columns := full _ found
    obtain ⟨news, made⟩ := Pointwise.exists_forall₂ (R := BaseColumn.CompressesTo)
      fun column member => BaseColumn.exists_compressesTo (columns column member).2
        ((columns column member).1 ▸ notInfinite) ((columns column member).1 ▸ small)
    refine ⟨⟨news⟩, regular.compressedChunk_eq_ok.mpr ⟨_, found, finite.mpr notInfinite, ?_, made⟩⟩
    exact (regular.size_eq_iff (List.getElem_mem inside)).mpr fun column member =>
      (columns column member).1

/-- `compress_chunk` on a regular table: it returns exactly for a full chunk of value columns whose
size is neither unlimited nor too large for an attribute vector; then only the representation of
that chunk has changed. When it throws, nothing has. -/
theorem compressChunk_contract (regular : t.Regular) (fewChunks : t.chunks.length < 2 ^ 32)
    (id : ChunkID) :
    ((∃ left, t.compressChunk id = .returned left) ↔ id < t.chunkCount ∧ 0 < t.chunkSize ∧
      t.chunkSize < 2 ^ 32 - 1 ∧ ∀ chunk, t.chunks[id.toNat]? = some chunk →
        ∀ column ∈ chunk.columns, column.size = t.chunkSize.toNat ∧ column.isValue = true) ∧
    (∀ left, t.compressChunk id = .returned left → ∃ old new, t.chunks[id.toNat]? = some old ∧
      left = { t with chunks := t.chunks.set id.toNat new } ∧ new.size = old.size ∧
      List.Forall₂ BaseColumn.SameContent old.columns new.columns ∧
      ∀ column ∈ new.columns, column.isValue = false) ∧
    ∀ fault left, t.compressChunk id = .stopped fault left → left = t ∧ fault.Catchable := by
  refine ⟨?_, ?_, ?_⟩
  · rw [← regular.exists_compressedChunk_iff fewChunks]
    simp only [compressChunk_eq_returned]
    constructor
    · rintro ⟨left, new, made, _⟩
      exact ⟨new, made⟩
    · rintro ⟨new, made⟩
      exact ⟨_, new, made, rfl⟩
  · intro left run
    obtain ⟨new, made, rfl⟩ := compressChunk_eq_returned.mp run
    obtain ⟨old, found, _, full, made⟩ := regular.compressedChunk_eq_ok.mp made
    have member := List.mem_of_getElem? found
    refine ⟨old, new, found, rfl, ?_, ?_, ?_⟩
    · exact Chunk.size_eq_of_compressesTo made
    · exact Pointwise.imp_mem made fun column column' inside compressed =>
        compressed.sameContent (regular.ordered old member column inside)
    · intro column inside
      obtain ⟨_, _, compressed⟩ := Pointwise.mem_right made inside
      exact compressed.isValue.2
  · intro fault left run
    obtain ⟨rfl, thrown⟩ := compressChunk_eq_stopped run
    exact ⟨rfl, catchable_of_compressedChunk regular.shaped thrown⟩

omit [Build] in
theorem compressChunk_contract_full_chunk :
    letI := strictBuild
    ∃ left, (Table.mk [true] ["a"] ["int"] [⟨[.value .int ⟨[(3 : Int32), (1 : Int32)]⟩]⟩] 2).compressChunk 0 =
      .returned left := by
  let _ := strictBuild
  have shape : Chunk.Shaped ["int"] 2 ⟨[.value .int ⟨[(3 : Int32), (1 : Int32)]⟩]⟩ := by
    refine ⟨?_, ?_, by omega⟩
    · rintro (_ | i) column found
      · cases Option.some.inj found
        rfl
      · cases found
    · simp only [List.mem_singleton, forall_eq]
      rfl
  refine (compressChunk_contract ⟨by decide, by decide, by simp, ?_, ?_⟩ (by decide) 0).1.mpr
    ⟨by decide, by decide, by decide, ?_⟩
  · simp only [List.mem_singleton, forall_eq]
    exact ⟨2, shape⟩
  · simp [ColumnType.ordered_iff]
  · intro chunk found
    cases Option.some.inj found
    simp only [List.mem_singleton, forall_eq]
    exact ⟨rfl, rfl⟩

end Table

end Opossum

import Opossum.Storage.Table

/-!
# What one call on a table can do

One lemma for each call that changes a table, so that invariants need not look into the calls again.
-/

namespace Opossum

namespace Table
variable {t left : Table} {name type : String}

theorem isLastChunkFull_iff : t.isLastChunkFull = true ↔
    t.chunkSize ≠ 0 ∧ (t.chunks.map Chunk.size).getLast? = some t.chunkSize := by
  rw [List.getLast?_map]
  cases last : t.chunks.getLast? <;> simp [isLastChunkFull, hasInfiniteChunkSize, last]

theorem hasDefinition_iff : t.hasDefinition name = true ↔ name ∈ t.columnNames := by
  simp [hasDefinition]

theorem addColumnDefinition_eq_returned : t.addColumnDefinition name type = .returned left ↔
    name ∉ t.columnNames ∧ left = { t with
      columnNames := t.columnNames ++ [name]
      columnTypes := t.columnTypes ++ [type]
      isInstantiated := t.isInstantiated ++ [false] } := by
  rw [← hasDefinition_iff, addColumnDefinition]
  split
  · rename_i known
    simp [known]
  · rename_i unknown
    rw [and_iff_right unknown, Outcome.returned.injEq]
    exact eq_comm

theorem validateExistingDefinition_eq_ok : t.validateExistingDefinition name type = .ok () ↔
    t.columnTypes[t.columnNames.idxOf name]? = some type ∧
      t.isInstantiated[t.columnNames.idxOf name]? = some false := by
  simp only [validateExistingDefinition, columnType]
  cases found : t.columnTypes[t.columnNames.idxOf name]? with
  | none => simp [Except.error_bind]
  | some existing =>
    simp only [Except.ok_bind, assert_bind_eq_ok]
    cases flag : t.isInstantiated[t.columnNames.idxOf name]? <;> simp [assert_eq_ok]

theorem catchable_of_validateExistingDefinition {fault : Fault}
    (thrown : t.validateExistingDefinition name type = .error fault) : fault.Catchable := by
  unfold validateExistingDefinition at thrown
  rcases Except.bind_eq_error.mp thrown with missing | ⟨existing, _, thrown⟩
  · exact catchable_of_columnType missing
  rcases Except.bind_eq_error.mp thrown with different | ⟨_, _, thrown⟩
  · exact catchable_of_assert different
  · split at thrown
    · cases thrown
      simp [Fault.Catchable]
    · exact catchable_of_assert thrown

theorem catchable_of_markInstantiated {fault : Fault} (run : t.markInstantiated name = .stopped fault left) :
    left = t ∧ fault.Catchable := by
  unfold markInstantiated at run
  split at run
  · rename_i missing
    cases run
    exact ⟨rfl, catchable_of_columnIdByName missing⟩
  · split at run
    · cases run
    · cases run
      exact ⟨rfl, by simp [Fault.Catchable]⟩

theorem markInstantiated_eq_returned : t.markInstantiated name = .returned left ↔
    ∃ id, t.columnIdByName name = .ok id ∧ id < t.isInstantiated.length ∧
      left = { t with isInstantiated := t.isInstantiated.set id true } := by
  unfold markInstantiated
  cases t.columnIdByName name with
  | error fault => simp
  | ok id =>
    by_cases inside : id < t.isInstantiated.length
    · simp [inside, eq_comm]
    · simp [inside]

/-- What `add_column` makes of the definitions before it comes to the chunks. -/
inductive Defines (name type : String) (t : Table) : Table → Prop
  | known : name ∈ t.columnNames → t.columnTypes[t.columnNames.idxOf name]? = some type →
      t.isInstantiated[t.columnNames.idxOf name]? = some false → Defines name type t t
  | new : name ∉ t.columnNames → Defines name type t { t with
      columnNames := t.columnNames ++ [name]
      columnTypes := t.columnTypes ++ [type]
      isInstantiated := t.isInstantiated ++ [false] }

theorem Defines.sameChunks {t' : Table} (defines : t.Defines name type t') :
    t'.chunks = t.chunks ∧ t'.chunkSize = t.chunkSize := by
  cases defines <;> exact ⟨rfl, rfl⟩

/-- A definition is accepted by the lookup of an old name or by the definition of a new one. -/
theorem exists_defines_iff : (∃ t', t.Defines name type t') ↔
    (name ∈ t.columnNames → t.validateExistingDefinition name type = .ok ()) := by
  rw [validateExistingDefinition_eq_ok]
  constructor
  · rintro ⟨_, defines⟩ member
    cases defines with
    | known _ sameType free => exact ⟨sameType, free⟩
    | new absent => exact absurd member absent
  · intro valid
    by_cases member : name ∈ t.columnNames
    · exact ⟨t, .known member (valid member).1 (valid member).2⟩
    · exact ⟨_, .new member⟩

variable [Build]

/-- Once the definition is accepted, the chunks get their columns, and then the flag is set. -/
theorem addColumn_of_defines {t' : Table} (defines : t.Defines name type t') :
    t.addColumn name type = ((Outcome.forEach (instantiate type) t.chunks).within fun chunks =>
      { t' with chunks := chunks }).andThen fun t => t.markInstantiated name := by
  unfold addColumn
  cases defines with
  | known member sameType free =>
    have valid := validateExistingDefinition_eq_ok.mpr ⟨sameType, free⟩
    rw [if_pos (hasDefinition_iff.mpr member), valid]
    rfl
  | new absent =>
    have unknown : ¬t.hasDefinition name = true := fun known => absent (hasDefinition_iff.mp known)
    rw [if_neg unknown, addColumnDefinition_eq_returned.mpr ⟨absent, rfl⟩]
    rfl

/-- Without an accepted definition, `add_column` throws at once. -/
theorem addColumn_of_refused (refused : ¬∃ t', t.Defines name type t') :
    ∃ fault, fault.Catchable ∧ t.addColumn name type = .stopped fault t := by
  obtain ⟨member, invalid⟩ := Classical.not_imp.mp (exists_defines_iff.not.mp refused)
  unfold addColumn
  rw [if_pos (hasDefinition_iff.mpr member)]
  cases valid : t.validateExistingDefinition name type with
  | ok => exact absurd valid invalid
  | error fault => exact ⟨fault, catchable_of_validateExistingDefinition valid, rfl⟩

/-- `add_column` returns when the definition is accepted, each chunk takes a new column, and the
column is found again. -/
theorem addColumn_eq_returned : t.addColumn name type = .returned left ↔
    ∃ t' chunks id, t.Defines name type t' ∧
      List.Forall₂ (fun chunk chunk' => instantiate type chunk = .returned chunk') t.chunks chunks ∧
      t'.columnIdByName name = .ok id ∧ id < t'.isInstantiated.length ∧
      left = { t' with chunks := chunks, isInstantiated := t'.isInstantiated.set id true } := by
  have accepted {t' : Table} (defines : t.Defines name type t') :
      t.addColumn name type = .returned left ↔ ∃ chunks id,
        List.Forall₂ (fun chunk chunk' => instantiate type chunk = .returned chunk') t.chunks chunks ∧
        t'.columnIdByName name = .ok id ∧ id < t'.isInstantiated.length ∧
        left = { t' with chunks := chunks, isInstantiated := t'.isInstantiated.set id true } := by
    rw [addColumn_of_defines defines]
    simp only [Outcome.andThen_eq_returned, Outcome.within_eq_returned, Outcome.forEach_eq_returned,
      markInstantiated_eq_returned]
    constructor
    · rintro ⟨_, ⟨chunks, taken, rfl⟩, id, rest⟩
      exact ⟨chunks, id, taken, rest⟩
    · rintro ⟨chunks, id, taken, rest⟩
      exact ⟨_, ⟨chunks, taken, rfl⟩, id, rest⟩
  constructor
  · intro run
    by_cases defined : ∃ t', t.Defines name type t'
    · obtain ⟨t', defines⟩ := defined
      obtain ⟨chunks, id, rest⟩ := (accepted defines).mp run
      exact ⟨t', chunks, id, defines, rest⟩
    · obtain ⟨fault, _, stop⟩ := addColumn_of_refused defined
      rw [stop] at run
      cases run
  · rintro ⟨t', chunks, id, defines, rest⟩
    exact (accepted defines).mpr ⟨chunks, id, rest⟩

/-- However `add_column` ends, a new name has been defined, and nothing else has changed but the
chunks and one flag, which may have been set. -/
theorem addColumn_left (good : Table → Prop) (known : name ∈ t.columnNames → good t)
    (new : name ∉ t.columnNames → good { t with
      columnNames := t.columnNames ++ [name]
      columnTypes := t.columnTypes ++ [type]
      isInstantiated := t.isInstantiated ++ [false] })
    (chunksFrame : ∀ u chunks, chunks.length = u.chunks.length → good u → good { u with chunks := chunks })
    (flagFrame : ∀ u id, good u → good { u with isInstantiated := u.isInstantiated.set id true }) :
    good (t.addColumn name type).left := by
  unfold addColumn
  refine Outcome.left_andThen good ?_ fun u defined => Outcome.left_andThen good ?_ fun v taken => ?_
  · by_cases member : name ∈ t.columnNames
    · simpa [hasDefinition_iff, member, Outcome.left_ofExcept_const] using known member
    · simpa [hasDefinition_iff, member, addColumnDefinition] using new member
  · rw [Outcome.left_within]
    exact chunksFrame u _ (Outcome.length_each ..) defined
  · unfold markInstantiated
    split
    · exact taken
    · split
      · exact flagFrame v _ taken
      · exact taken

/-- A new empty column goes onto a chunk without rows. -/
theorem instantiate_eq_returned {chunk chunk' : Chunk} : instantiate type chunk = .returned chunk' ↔
    ∃ T : ColumnType, T.typeString = type ∧ (chunk.size.toNat = 0 ∨ chunk.columns = []) ∧
      chunk' = ⟨chunk.columns ++ [.value T ⟨[]⟩]⟩ := by
  unfold instantiate
  cases made : makeSharedByColumnType BaseColumn.newValueColumn type with
  | error fault =>
    refine iff_of_false (by simp) ?_
    rintro ⟨T, rfl, _⟩
    rw [makeSharedByColumnType_typeString] at made
    cases made
  | ok column =>
    cases column with
    | none =>
      refine iff_of_false (by simp [Chunk.addColumn]) ?_
      rintro ⟨T, rfl, _⟩
      rw [makeSharedByColumnType_typeString] at made
      cases made
    | some column =>
      obtain ⟨T, rfl, new⟩ := makeSharedByColumnType_eq_ok.mp made
      cases new
      refine Chunk.addColumn_eq_returned.trans ⟨fun grown => ?_, ?_⟩
      · exact ⟨T, rfl, grown.1.imp_left Eq.symm, grown.2⟩
      · rintro ⟨U, same, fits, rfl⟩
        obtain rfl := ColumnType.typeString_injective same
        exact ⟨fits.imp_left Eq.symm, rfl⟩

theorem instantiate_fresh (types : List ColumnType) (T : ColumnType) :
    instantiate T.typeString (Chunk.fresh types) = .returned (Chunk.fresh (types ++ [T])) := by
  refine instantiate_eq_returned.mpr ⟨T, rfl, Or.inl ?_, by simp [Chunk.fresh]⟩
  exact Chunk.size_toNat_eq_zero (Chunk.fresh_sizes types)

/-- The two callers of `make_shared_by_column_type<BaseColumn, ValueColumn>` do the same. -/
theorem addValueColumn_eq_ok {chunk chunk' : Chunk} :
    addValueColumn chunk type = .ok chunk' ↔ instantiate type chunk = .returned chunk' := by
  unfold addValueColumn instantiate
  cases makeSharedByColumnType BaseColumn.newValueColumn type with
  | error fault => simp [Except.error_bind]
  | ok column => rw [Except.ok_bind, Outcome.toExcept_eq_ok]

theorem newChunk_eq {types : List ColumnType} (typed : t.columnTypes = types.map ColumnType.typeString) :
    t.newChunk = .ok (Chunk.fresh types) := by
  have from_chunk (done : List ColumnType) : types.foldlM (fun c T => addValueColumn c T.typeString)
      (Chunk.fresh done) = .ok (Chunk.fresh (done ++ types)) := by
    clear typed
    induction types generalizing done with
    | nil => simp [pure, Except.pure]
    | cons T types ih =>
      rw [List.foldlM_cons, addValueColumn_eq_ok.mpr (instantiate_fresh done T), Except.ok_bind, ih,
        List.append_assoc, List.singleton_append]
  rw [newChunk, typed, List.foldlM_map]
  exact from_chunk []

/-- `create_new_chunk` returns exactly when every stored type string names a column type. -/
theorem createNewChunk_eq_returned : t.createNewChunk = .returned left ↔
    ∃ types, t.columnTypes = types.map ColumnType.typeString ∧
      left = { t with chunks := t.chunks ++ [Chunk.fresh types] } := by
  rw [createNewChunk, Outcome.ofExcept_eq_returned, Except.map_eq_ok]
  constructor
  · rintro ⟨chunk, made, rfl⟩
    obtain ⟨types, typed⟩ := supported_iff.mp fun type member => by
      obtain ⟨c, c', round⟩ := Except.foldlM_eq_ok made type member
      obtain ⟨T, same, _⟩ := instantiate_eq_returned.mp (addValueColumn_eq_ok.mp round)
      exact ⟨T, same⟩
    cases made.symm.trans (newChunk_eq typed)
    exact ⟨types, typed, rfl⟩
  · rintro ⟨types, typed, rfl⟩
    exact ⟨_, newChunk_eq typed, rfl⟩

theorem createNewChunk_eq {types : List ColumnType}
    (typed : t.columnTypes = types.map ColumnType.typeString) :
    t.createNewChunk = .returned { t with chunks := t.chunks ++ [Chunk.fresh types] } :=
  createNewChunk_eq_returned.mpr ⟨types, typed, rfl⟩

omit [Build] in
theorem onBack_eq_returned {call : Chunk → Outcome Fault Chunk} : t.onBack call = .returned left ↔
    ∃ front last last', t.chunks = front ++ [last] ∧ call last = .returned last' ∧
      left = { t with chunks := front ++ [last'] } := by
  unfold onBack
  obtain none | ⟨front, last, split⟩ := List.eq_nil_or_concat t.chunks
  · simp [none]
  · rw [List.concat_eq_append] at split
    simp only [split, List.getLast?_append, List.getLast?_singleton, Option.some_or,
      List.dropLast_concat, Outcome.within_eq_returned]
    constructor
    · rintro ⟨last', run, rfl⟩
      exact ⟨front, last, last', rfl, run, rfl⟩
    · rintro ⟨front', last'', last', same, run, rfl⟩
      obtain ⟨rfl, lastSame⟩ := List.append_inj' same rfl
      cases lastSame
      exact ⟨last', run, rfl⟩

/-- An append that returns has opened a chunk if the last one was full, and has then written to the
last one only. -/
theorem append_eq_returned {values : List AllTypeVariant} : t.append values = .returned left ↔
    ∃ mid front last last',
      (if t.isLastChunkFull = true then t.createNewChunk = .returned mid else mid = t) ∧
      mid.chunks = front ++ [last] ∧ last.append values = .returned last' ∧
      left = { mid with chunks := front ++ [last'] } := by
  unfold append
  rw [Outcome.andThen_eq_returned]
  split
  · simp only [onBack_eq_returned, exists_and_left]
  · simp only [onBack_eq_returned, exists_and_left, Outcome.returned.injEq, eq_comm (a := t)]

/-- These calls write nothing but chunks, however they end, and take no chunk away. -/
theorem left_rowCall {call : TableCall} (rowCall : ∀ name type, call ≠ .addColumnDefinition name type ∧
    call ≠ .addColumn name type) :
    ∃ chunks, t.chunks.length ≤ chunks.length ∧ (call.run t).left = { t with chunks := chunks } := by
  have opens (t : Table) : ∃ chunks, t.chunks.length ≤ chunks.length ∧
      t.createNewChunk.left = { t with chunks := chunks } := by
    unfold createNewChunk
    cases t.newChunk with
    | ok chunk => exact ⟨t.chunks ++ [chunk], by simp, rfl⟩
    | error fault => exact ⟨t.chunks, le_rfl, rfl⟩
  cases call with
  | addColumnDefinition name type => exact absurd rfl (rowCall name type).1
  | addColumn name type => exact absurd rfl (rowCall name type).2
  | createNewChunk => exact opens t
  | compressChunk id =>
    simp only [TableCall.run, compressChunk]
    cases t.compressedChunk id with
    | ok chunk => exact ⟨t.chunks.set id.toNat chunk, by simp, rfl⟩
    | error fault => exact ⟨t.chunks, le_rfl, rfl⟩
  | append values =>
    refine Outcome.left_andThen
      (fun u => ∃ chunks, t.chunks.length ≤ chunks.length ∧ u = { t with chunks := chunks }) ?_ ?_
    · split
      · exact opens t
      · exact ⟨t.chunks, le_rfl, rfl⟩
    · rintro _ ⟨chunks, longer, rfl⟩
      simp only [onBack]
      split
      · rw [Outcome.left_within]
        rename_i last atLast
        have nonempty : chunks ≠ [] := fun none => by simp [none] at atLast
        refine ⟨_, ?_, rfl⟩
        rw [List.length_append, List.length_dropLast, List.length_singleton]
        have positive := List.length_pos_iff.mpr nonempty
        omega
      · exact ⟨chunks, longer, rfl⟩

end Table

end Opossum

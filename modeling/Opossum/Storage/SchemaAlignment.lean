import Opossum.Foundation.Run
import Opossum.Storage.ChunkRows
import Opossum.Storage.TableSteps

/-!
# The columns of the chunks and the column definitions

`add_column_definition`, `add_column` and `create_new_chunk` put columns into the schema and into the
chunks at different times. The two stay in step as long as `add_column` finds in every chunk just the
columns that are defined before its own.
-/

namespace Opossum

/-- The type strings of the columns of a chunk. -/
def Chunk.typeStrings (c : Chunk) : List String := c.columns.map fun column => column.elementType.typeString

@[simp] theorem Chunk.length_typeStrings (c : Chunk) : c.typeStrings.length = c.columns.length := by
  simp [typeStrings]

namespace Table
variable {t left : Table} {name type : String}

/-- No chunk is ahead of the definitions, and when all columns are instantiated, every chunk has
exactly the defined columns. -/
structure Aligned (t : Table) : Prop where
  notAhead : ∀ chunk ∈ t.chunks, chunk.columns.length ≤ t.columnNames.length
  complete : (∀ flag ∈ t.isInstantiated, flag = true) → ∀ chunk ∈ t.chunks,
    chunk.columns.length = t.colCount.toNat ∧ ∀ (i : Nat) column, chunk.columns[i]? = some column →
      t.columnTypes[i]? = some column.elementType.typeString

/-- The invariant of runs in which every `add_column` is in place. A flag that is set stands for a column
that all chunks have; past `2^16` definitions, where column ids end, not all flags can be set. -/
structure InStep (t : Table) : Prop where
  typesLength : t.columnTypes.length = t.columnNames.length
  flagsLength : t.isInstantiated.length = t.columnNames.length
  typed : ∀ chunk ∈ t.chunks, chunk.typeStrings <+: t.columnTypes
  reached : t.columnNames.length < 2 ^ 16 → ∀ (i : Nat), t.isInstantiated[i]? = some true →
    ∀ chunk ∈ t.chunks, i < chunk.columns.length
  bounded : ∀ (i : Nat), t.isInstantiated[i]? = some true → i < 2 ^ 16 - 1

theorem InStep.notAhead (inStep : t.InStep) {chunk : Chunk} (member : chunk ∈ t.chunks) :
    chunk.columns.length ≤ t.columnNames.length := by
  have shorter := (inStep.typed chunk member).length_le
  rwa [Chunk.length_typeStrings, inStep.typesLength] at shorter

theorem InStep.aligned (inStep : t.InStep) : t.Aligned := by
  refine ⟨fun chunk member => inStep.notAhead member, fun all chunk member => ?_⟩
  have flag {i : Nat} (inside : i < t.columnNames.length) : t.isInstantiated[i]? = some true := by
    have inFlags : i < t.isInstantiated.length := inStep.flagsLength ▸ inside
    rw [List.getElem?_eq_getElem inFlags, all _ (List.getElem_mem inFlags)]
  have few : t.columnNames.length < 2 ^ 16 := by
    by_contra many
    have last := inStep.bounded (2 ^ 16 - 1) (flag (by omega))
    omega
  have notBehind : t.columnNames.length ≤ chunk.columns.length := by
    by_contra behind
    have next := inStep.reached few chunk.columns.length (flag (by omega)) chunk member
    omega
  refine ⟨?_, fun i column found => ?_⟩
  · rw [colCount_toNat, Nat.mod_eq_of_lt few]
    exact Nat.le_antisymm (inStep.notAhead member) notBehind
  · have typed : chunk.typeStrings[i]? = some column.elementType.typeString := by
      rw [Chunk.typeStrings, List.getElem?_map, found, Option.map_some]
    obtain ⟨rest, split⟩ := inStep.typed chunk member
    rw [← split, List.getElem?_append_left (List.getElem?_eq_some_iff.mp typed).1, typed]

/-- Chunks may be exchanged for chunks of the same types. -/
theorem InStep.with_chunks (inStep : t.InStep) {chunks : List Chunk}
    (same : ∀ chunk' ∈ chunks, ∃ chunk ∈ t.chunks, chunk'.typeStrings = chunk.typeStrings) :
    InStep { t with chunks := chunks } := by
  refine ⟨inStep.typesLength, inStep.flagsLength, fun chunk' member' => ?_,
    fun few i set chunk' member' => ?_, inStep.bounded⟩
  · obtain ⟨chunk, member, equal⟩ := same chunk' member'
    exact equal ▸ inStep.typed chunk member
  · obtain ⟨chunk, member, equal⟩ := same chunk' member'
    rw [← Chunk.length_typeStrings, equal, Chunk.length_typeStrings]
    exact inStep.reached few i set chunk member

theorem idxOf_eq_of_first {names : List String} {id : Nat} (here : names[id]? = some name)
    (first : ∀ j, j < id → names[j]? ≠ some name) : names.idxOf name = id := by
  obtain ⟨inside, same⟩ := List.getElem?_eq_some_iff.mp here
  have absent : name ∉ names.take id := by
    intro member
    obtain ⟨j, found⟩ := List.mem_iff_getElem?.mp member
    obtain ⟨before, _⟩ := List.getElem?_eq_some_iff.mp found
    rw [List.length_take] at before
    rw [List.getElem?_take_of_lt (by omega)] at found
    exact first j (by omega) found
  have split : names = names.take id ++ name :: names.drop (id + 1) := by
    rw [← same, ← List.drop_eq_getElem_cons inside, List.take_append_drop]
  rw [split, List.idxOf_append_of_notMem absent, List.idxOf_cons_self, List.length_take]
  omega

/-- The column that `add_column` pushes gets the place of its definition as its id. -/
theorem Defines.place {t' : Table} (defines : t.Defines name type t') {id : Nat}
    (found : t'.columnIdByName name = .ok id) :
    t.columnNames.idxOf name = id ∧ id < 2 ^ 16 - 1 := by
  obtain ⟨inside, here, first⟩ := columnIdByName_eq_ok.mp found
  rw [colCount_toNat] at inside
  refine ⟨?_, by omega⟩
  rw [← idxOf_eq_of_first here first]
  cases defines with
  | known member => rfl
  | new absent =>
    rw [List.idxOf_append_of_notMem absent, List.idxOf_cons_self, List.idxOf_eq_length absent, Nat.add_zero]

theorem prefix_concat {types all : List String} (before : types <+: all)
    (next : all[types.length]? = some type) : types ++ [type] <+: all := by
  obtain ⟨rest, rfl⟩ := before
  rw [List.getElem?_append_right (Nat.le_refl _), Nat.sub_self] at next
  obtain _ | ⟨head, rest⟩ := rest
  · cases next
  · cases Option.some.inj next
    exact ⟨rest, by simp⟩

theorem set_flag_old {flags : List Bool} {i : Nat} (set : (flags ++ [false])[i]? = some true) :
    flags[i]? = some true := by
  rw [List.getElem?_append] at set
  split at set
  · exact set
  · cases List.mem_singleton.mp (List.mem_of_getElem? set)

theorem InStep.addColumnDefinition (inStep : t.InStep)
    (run : t.addColumnDefinition name type = .returned left) : left.InStep := by
  obtain ⟨_, rfl⟩ := addColumnDefinition_eq_returned.mp run
  refine ⟨by simp [inStep.typesLength], by simp [inStep.flagsLength], fun chunk member => ?_,
    fun few i set chunk member => ?_, fun i set => inStep.bounded i (set_flag_old set)⟩
  · exact (inStep.typed chunk member).trans (List.prefix_append ..)
  · rw [List.length_append, List.length_singleton] at few
    exact inStep.reached (by omega) i (set_flag_old set) chunk member

/-- The definitions after `add_column` has looked the name up, with the type at the place of the name. -/
theorem Defines.inStep {t' : Table} (defines : t.Defines name type t') (inStep : t.InStep) :
    t'.InStep ∧ t'.columnTypes[t.columnNames.idxOf name]? = some type := by
  cases defines with
  | known _ sameType _ => exact ⟨inStep, sameType⟩
  | new absent =>
    have defined : t.addColumnDefinition name type = .returned _ :=
      addColumnDefinition_eq_returned.mpr ⟨absent, rfl⟩
    refine ⟨inStep.addColumnDefinition defined, ?_⟩
    rw [List.idxOf_eq_length absent, ← inStep.typesLength, List.getElem?_concat_length]

variable [Build]

theorem instantiate_typeStrings {chunk chunk' : Chunk} (run : instantiate type chunk = .returned chunk') :
    chunk'.typeStrings = chunk.typeStrings ++ [type] := by
  obtain ⟨T, rfl, _, rfl⟩ := instantiate_eq_returned.mp run
  simp [Chunk.typeStrings]

theorem InStep.addColumn (inStep : t.InStep) (run : t.addColumn name type = .returned left)
    (inPlace : ∀ chunk ∈ t.chunks, chunk.columns.length = t.columnNames.idxOf name) : left.InStep := by
  obtain ⟨t', chunks, id, defines, taken, found, inFlags, rfl⟩ := addColumn_eq_returned.mp run
  obtain ⟨place, small⟩ := defines.place found
  obtain ⟨defined, sameType⟩ := defines.inStep inStep
  have sameChunks := defines.sameChunks.1
  have grown (chunk' : Chunk) (member' : chunk' ∈ chunks) : ∃ chunk ∈ t'.chunks,
      chunk'.typeStrings = chunk.typeStrings ++ [type] ∧ chunk.columns.length = id := by
    obtain ⟨chunk, member, made⟩ := Pointwise.mem_right taken member'
    exact ⟨chunk, sameChunks ▸ member, instantiate_typeStrings made, (inPlace chunk member).trans place⟩
  refine ⟨defined.typesLength, by simpa using defined.flagsLength, fun chunk' member' => ?_,
    fun few i set chunk' member' => ?_, fun i set => ?_⟩
  · obtain ⟨chunk, member, typed, length⟩ := grown chunk' member'
    rw [typed]
    refine prefix_concat (defined.typed chunk member) ?_
    rw [Chunk.length_typeStrings, length, ← place, sameType]
  · obtain ⟨chunk, member, typed, length⟩ := grown chunk' member'
    rw [← Chunk.length_typeStrings, typed, List.length_append, Chunk.length_typeStrings,
      List.length_singleton]
    by_cases same : id = i
    · omega
    · have before := defined.reached few i (by rwa [List.getElem?_set_ne same] at set) chunk member
      omega
  · by_cases same : id = i
    · omega
    · exact defined.bounded i (by rwa [List.getElem?_set_ne same] at set)

theorem InStep.createNewChunk (inStep : t.InStep) (run : t.createNewChunk = .returned left) :
    left.InStep := by
  obtain ⟨types, typed, rfl⟩ := createNewChunk_eq_returned.mp run
  have fresh : (Chunk.fresh types).typeStrings = t.columnTypes := by
    rw [typed, Chunk.fresh, Chunk.typeStrings, List.map_map]
    rfl
  refine ⟨inStep.typesLength, inStep.flagsLength, fun chunk member => ?_,
    fun few i set chunk member => ?_, inStep.bounded⟩
  · rcases List.mem_append.mp member with old | new
    · exact inStep.typed chunk old
    · have same : chunk.typeStrings = t.columnTypes := by
        rw [List.mem_singleton.mp new, fresh]
      exact same ▸ List.prefix_refl _
  · rcases List.mem_append.mp member with old | new
    · exact inStep.reached few i set chunk old
    · rw [List.mem_singleton.mp new, ← Chunk.length_typeStrings, fresh, inStep.typesLength,
        ← inStep.flagsLength]
      exact (List.getElem?_eq_some_iff.mp set).1

theorem append_typeStrings {chunk chunk' : Chunk} {values : List AllTypeVariant}
    (run : chunk.append values = .returned chunk') : chunk'.typeStrings = chunk.typeStrings := by
  have extended := Chunk.append_extends_all run
  exact (Pointwise.map_eq_map extended fun _ _ grown => by rw [grown.sameType]).symm

theorem InStep.append {values : List AllTypeVariant} (inStep : t.InStep)
    (run : t.append values = .returned left) : left.InStep := by
  obtain ⟨mid, front, last, last', opened, split, wrote, rfl⟩ := append_eq_returned.mp run
  have midInStep : mid.InStep := by
    split at opened
    · exact inStep.createNewChunk opened
    · exact opened ▸ inStep
  refine midInStep.with_chunks fun chunk' member' => ?_
  rw [split]
  rcases List.mem_append.mp member' with old | new
  · exact ⟨chunk', List.mem_append_left _ old, rfl⟩
  · rw [List.mem_singleton.mp new]
    exact ⟨last, by simp, append_typeStrings wrote⟩

/-- A compressed column has the type that the schema has for its id. -/
theorem compressColumn_type {old new new' : Chunk} {id : Nat}
    (run : t.compressColumn old new id = .ok new') : ∃ column, new' = ⟨new.columns ++ [column]⟩ ∧
      t.columnTypes[id]? = some column.elementType.typeString := by
  unfold compressColumn at run
  obtain ⟨source, _, run⟩ := Except.bind_eq_ok.mp run
  obtain ⟨type, found, run⟩ := Except.bind_eq_ok.mp run
  obtain ⟨made, compressed, run⟩ := Except.bind_eq_ok.mp run
  obtain _ | column := made
  · cases run
  obtain ⟨T, sameType, new⟩ := makeSharedByColumnType_eq_ok.mp compressed
  obtain ⟨sourceType, made⟩ := BaseColumn.newDictionaryColumn_eq_ok.mp new
  obtain ⟨_, rfl⟩ := Chunk.addColumn_eq_returned.mp (Outcome.toExcept_eq_ok.mp run)
  refine ⟨column, rfl, ?_⟩
  rw [made.sameType, sourceType, sameType, columnType_eq_ok.mp found]

theorem compressColumns_types {old new : Chunk} {k : Nat}
    (run : (List.range k).foldlM (t.compressColumn old) Chunk.empty = .ok new) :
    new.typeStrings = t.columnTypes.take k ∧ new.columns.length = k := by
  induction k generalizing new with
  | zero =>
    cases run
    exact ⟨rfl, rfl⟩
  | succ k ih =>
    rw [List.range_succ, List.foldlM_append] at run
    obtain ⟨mid, before, round⟩ := Except.bind_eq_ok.mp run
    simp only [List.foldlM_cons, List.foldlM_nil, bind_pure] at round
    obtain ⟨sameTypes, sameLength⟩ := ih before
    obtain ⟨column, rfl, found⟩ := compressColumn_type round
    refine ⟨?_, by simp [sameLength]⟩
    rw [List.take_add_one, found, ← sameTypes]
    simp [Chunk.typeStrings]

theorem InStep.compressChunk {id : ChunkID} (inStep : t.InStep)
    (run : t.compressChunk id = .returned left) : left.InStep := by
  obtain ⟨new, made, rfl⟩ := compressChunk_eq_returned.mp run
  unfold compressedChunk at made
  obtain ⟨old, found, made⟩ := Except.bind_eq_ok.mp made
  rw [assert_bind_eq_ok, assert_bind_eq_ok] at made
  obtain ⟨typed, length⟩ := compressColumns_types made.2.2
  rw [Chunk.colCount_toNat] at length
  have member := List.mem_of_getElem? (getChunk_eq_ok.mp found)
  have notAhead := inStep.notAhead member
  refine ⟨inStep.typesLength, inStep.flagsLength, fun chunk inChunks => ?_,
    fun few i set chunk inChunks => ?_, inStep.bounded⟩
  · rcases List.mem_or_eq_of_mem_set inChunks with kept | rfl
    · exact inStep.typed chunk kept
    · rw [typed]
      exact List.take_prefix ..
  · rcases List.mem_or_eq_of_mem_set inChunks with kept | rfl
    · exact inStep.reached few i set chunk kept
    · have fewNames : t.columnNames.length < 2 ^ 16 := few
      rw [length, Nat.mod_eq_of_lt (by omega)]
      exact inStep.reached few i set old member

/-- `column_id_by_name` gives the place of the column that `add_column` has pushed onto each chunk. -/
def AddsAt (t : Table) (name : String) (left : Table) : Prop :=
  ∀ id, left.columnIdByName name = .ok id → ∀ chunk ∈ t.chunks, chunk.columns.length = id

theorem addsAt_iff (run : t.addColumn name type = .returned left) :
    t.AddsAt name left ↔ ∀ chunk ∈ t.chunks, chunk.columns.length = t.columnNames.idxOf name := by
  obtain ⟨t', chunks, id, defines, _, found, _, rfl⟩ := addColumn_eq_returned.mp run
  rw [(defines.place found).1]
  constructor
  · intro adds
    exact adds id found
  · intro inPlace id' found' chunk member
    rw [inPlace chunk member]
    exact Except.ok.inj (found.symm.trans found')

end Table

/-- The type strings that the call names are supported. -/
def TableCall.NamesSupported : TableCall → Prop
  | addColumnDefinition _ type => Supported type
  | addColumn _ type => Supported type
  | append _ => True
  | createNewChunk => True
  | compressChunk _ => True

/-- `add_column` is called when all chunks have just the columns that are defined before its own. -/
def TableCall.InPlace (t : Table) : TableCall → Prop
  | addColumn name _ => ∀ chunk ∈ t.chunks, chunk.columns.length = t.columnNames.idxOf name
  | addColumnDefinition _ _ => True
  | append _ => True
  | createNewChunk => True
  | compressChunk _ => True

namespace Table
variable [Build] {t left : Table}

theorem inStep_step {call : TableCall} (inStep : t.InStep) (inPlace : call.InPlace t)
    (step : Returning TableCall.run t call left) : left.InStep := by
  cases call with
  | addColumnDefinition name type => exact inStep.addColumnDefinition step
  | addColumn name type => exact inStep.addColumn step inPlace
  | append values => exact inStep.append step
  | createNewChunk => exact inStep.createNewChunk step
  | compressChunk id => exact inStep.compressChunk step

theorem new_inStep {chunkSize : UInt32} (created : Table.new chunkSize = .returned t) : t.InStep := by
  refine InStep.createNewChunk ?_ created
  exact ⟨rfl, rfl, by simp, by simp, by simp⟩

/-- The chunks stay aligned with the definitions, and every added column is where its id says, in all
states of a run, if and only if every `add_column` of the run is in place. -/
theorem aligned_run_iff {chunkSize : UInt32} {made : Table} {calls : List TableCall}
    (created : Table.new chunkSize = .returned made)
    (run : Run (Returning TableCall.run) made calls t) :
    (∀ pre u, pre <+: calls → Run (Returning TableCall.run) made pre u → u.Aligned) ∧
      (∀ pre name type post u v, calls = pre ++ .addColumn name type :: post →
        Run (Returning TableCall.run) made pre u → u.addColumn name type = .returned v →
          u.AddsAt name v) ↔
      Run (fun t call left => call.InPlace t ∧ Returning TableCall.run t call left) made calls t := by
  have each := Run.admissible_iff Returning.functional (fun u (call : TableCall) => call.InPlace u) run
  constructor
  · rintro ⟨_, adds⟩
    refine each.mp fun pre call post u v split before step => ?_
    cases call with
    | addColumn name type => exact (addsAt_iff step).mp (adds pre name type post u v split before step)
    | addColumnDefinition => trivial
    | append => trivial
    | createNewChunk => trivial
    | compressChunk => trivial
  · intro inPlace
    have places := each.mpr inPlace
    refine ⟨?_, fun pre name type post u v split before added =>
      (addsAt_iff added).mpr (places pre _ post u v split before added)⟩
    rintro pre u ⟨post, rfl⟩ before
    obtain ⟨mid, first, _⟩ := Run.append_iff.mp inPlace
    have kept := first.invariant InStep (fun _ _ _ _ inStep step => inStep_step inStep step.1 step.2)
      (new_inStep created)
    have same := Run.functional Returning.functional before (first.mono fun _ _ _ _ step => step.2)
    exact same ▸ kept.aligned

omit [Build] in
theorem aligned_run_iff_new_chunk :
    letI := strictBuild
    let made : Table := ⟨[], [], [], [⟨[]⟩], 2⟩
    let calls := [.addColumnDefinition "a" "int", .addColumn "a" "int", .append [⟨.int, (1 : Int32)⟩],
      .addColumnDefinition "b" "int", .createNewChunk, .append [⟨.int, (2 : Int32)⟩, ⟨.int, (3 : Int32)⟩]]
    (∀ pre u, pre <+: calls → Run (Returning TableCall.run) made pre u → u.Aligned) ∧
      (∀ pre name type post u v, calls = pre ++ .addColumn name type :: post →
        Run (Returning TableCall.run) made pre u → u.addColumn name type = .returned v →
          u.AddsAt name v) ↔
      Run (fun t call left => call.InPlace t ∧ Returning TableCall.run t call left) made calls
        ⟨[true, false], ["a", "b"], ["int", "int"], [⟨[.value .int ⟨[(1 : Int32)]⟩]⟩,
          ⟨[.value .int ⟨[(2 : Int32)]⟩, .value .int ⟨[(3 : Int32)]⟩]⟩], 2⟩ := by
  let _ := strictBuild
  have created : Table.new 2 = .returned ⟨[], [], [], [⟨[]⟩], 2⟩ := rfl
  exact aligned_run_iff created
    (.call rfl <| .call rfl <| .call rfl <| .call rfl <| .call rfl <| .call rfl .start)

omit [Build] in
/-- A column that a new chunk has got from its definition already is added to it again. -/
theorem addColumn_breaks_alignment :
    ¬∀ [Build] (chunkSize : UInt32) (made t : Table) (calls : List TableCall),
      Table.new chunkSize = .returned made → (∀ call ∈ calls, call.NamesSupported) →
        Run (Returning TableCall.run) made calls t → t.Aligned := by
  intro all
  let _ := strictBuild
  let column : BaseColumn := .value .int ⟨[]⟩
  have run : Run (Returning TableCall.run) ⟨[], [], [], [⟨[]⟩], 0⟩
      [.addColumnDefinition "a" "int", .createNewChunk, .addColumn "a" "int"]
      ⟨[true], ["a"], ["int"], [⟨[column]⟩, ⟨[column, column]⟩], 0⟩ :=
    .call rfl (.call rfl (.call rfl .start))
  have supported : Supported "int" := ⟨.int, rfl⟩
  have aligned := all 0 _ _ _ rfl (by simp [TableCall.NamesSupported, supported]) run
  have notAhead := aligned.notAhead ⟨[column, column]⟩ (by simp)
  simp at notAhead

end Table
end Opossum

import Opossum.Storage.Chunk

namespace Opossum

structure Table where
  isInstantiated : List Bool
  columnNames : List String
  columnTypes : List String
  chunks : List Chunk
  chunkSize : UInt32

namespace Table

def colCount (t : Table) : UInt16 := UInt16.ofNat t.columnNames.length

def rowCount (t : Table) : UInt64 :=
  t.chunks.foldl (fun result chunk => result + chunk.size.toUInt64) 0

def chunkCount (t : Table) : UInt32 := UInt32.ofNat t.chunks.length

def columnIdByName (t : Table) (name : String) : Except Fault Nat :=
  match (List.range t.colCount.toNat).find? (fun id => t.columnNames[id]? = some name) with
  | some id => .ok id
  | none => .error (.runtimeError "Column does not exist!")

def columnType (t : Table) (id : Nat) : Except Fault String :=
  match t.columnTypes[id]? with
  | some type => .ok type
  | none => .error .outOfRange

def columnName (t : Table) (id : Nat) : Except Fault String :=
  match t.columnNames[id]? with
  | some name => .ok name
  | none => .error .outOfRange

def getChunk (t : Table) (id : ChunkID) : Except Fault Chunk :=
  match t.chunks[id.toNat]? with
  | some chunk => .ok chunk
  | none => .error .outOfRange

def hasInfiniteChunkSize (t : Table) : Bool := t.chunkSize = 0

/-- `_chunks.back()` of a table, which always has a chunk. -/
def isLastChunkFull (t : Table) : Bool :=
  !t.hasInfiniteChunkSize && match t.chunks.getLast? with
    | some chunk => chunk.size = t.chunkSize
    | none => false

def hasDefinition (t : Table) (name : String) : Bool := t.columnNames.contains name

def validateExistingDefinition (t : Table) (name type : String) : Except Fault Unit := do
  let pos := t.columnNames.idxOf name
  let existingType ← t.columnType pos
  assert (existingType = type)
    "A column definition with the same name but a different type was already added!"
  match t.isInstantiated[pos]? with
  | none => .error .outOfRange
  | some instantiated => assert (!instantiated) "A column with the given name was already added!"

def addColumnDefinition (t : Table) (name type : String) : Outcome Fault Table :=
  if t.hasDefinition name then
    .stopped (.logicError "Column definition already exists!") t
  else
    .returned { t with
      columnNames := t.columnNames ++ [name]
      columnTypes := t.columnTypes ++ [type]
      isInstantiated := t.isInstantiated ++ [false] }

/-- One round of the loop over the chunks in `add_column`. -/
def instantiate [Build] (type : String) (chunk : Chunk) : Outcome Fault Chunk :=
  match makeSharedByColumnType BaseColumn.newValueColumn type with
  | .ok column => chunk.addColumn column
  | .error fault => .stopped fault chunk

def markInstantiated (t : Table) (name : String) : Outcome Fault Table :=
  match t.columnIdByName name with
  | .error fault => .stopped fault t
  | .ok id =>
    if id < t.isInstantiated.length then
      .returned { t with isInstantiated := t.isInstantiated.set id true }
    else
      .stopped .outOfRange t

def addColumn [Build] (t : Table) (name type : String) : Outcome Fault Table :=
  let defined :=
    if t.hasDefinition name then
      Outcome.ofExcept t ((t.validateExistingDefinition name type).map fun _ => t)
    else
      t.addColumnDefinition name type
  defined.andThen fun t =>
    ((Outcome.forEach (instantiate type) t.chunks).within fun chunks =>
      { t with chunks := chunks }).andThen fun t => t.markInstantiated name

/-- One round of the loop over the column types in `create_new_chunk`. -/
def addValueColumn [Build] (newChunk : Chunk) (type : String) : Except Fault Chunk := do
  let column ← makeSharedByColumnType BaseColumn.newValueColumn type
  (newChunk.addColumn column).toExcept

/-- The chunk that `create_new_chunk` builds. -/
def newChunk [Build] (t : Table) : Except Fault Chunk :=
  t.columnTypes.foldlM addValueColumn Chunk.empty

def createNewChunk [Build] (t : Table) : Outcome Fault Table :=
  Outcome.ofExcept t (t.newChunk.map fun chunk => { t with chunks := t.chunks ++ [chunk] })

/-- The constructor. -/
def new [Build] (chunkSize : UInt32) : Outcome Fault Table :=
  createNewChunk ⟨[], [], [], [], chunkSize⟩

/-- A call on `_chunks.back()`. -/
def onBack (t : Table) (call : Chunk → Outcome Fault Chunk) : Outcome Fault Table :=
  match t.chunks.getLast? with
  | some chunk => (call chunk).within fun chunk => { t with chunks := t.chunks.dropLast ++ [chunk] }
  | none => .stopped .undefined t

def append [Build] (t : Table) (values : List AllTypeVariant) : Outcome Fault Table :=
  (if t.isLastChunkFull then t.createNewChunk else .returned t).andThen fun t =>
    t.onBack fun chunk => chunk.append values

/-- One round of the loop over the columns in `compress_chunk`. -/
def compressColumn [Build] (t : Table) (oldChunk newChunk : Chunk) (id : Nat) :
    Except Fault Chunk := do
  let curColumn ← oldChunk.getColumn id
  let type ← t.columnType id
  let newColumn ← makeSharedByColumnType (BaseColumn.newDictionaryColumn curColumn) type
  (newChunk.addColumn newColumn).toExcept

/-- The chunk that `compress_chunk` builds and then swaps in. -/
def compressedChunk [Build] (t : Table) (id : ChunkID) : Except Fault Chunk := do
  let oldChunk ← t.getChunk id
  assert (!t.hasInfiniteChunkSize) "Cannot compress chunk of unlimited size!"
  assert (oldChunk.size = t.chunkSize) "Non-full chunk cannot be compressed!"
  (List.range oldChunk.colCount.toNat).foldlM (t.compressColumn oldChunk) Chunk.empty

def compressChunk [Build] (t : Table) (id : ChunkID) : Outcome Fault Table :=
  Outcome.ofExcept t
    ((t.compressedChunk id).map fun chunk => { t with chunks := t.chunks.set id.toNat chunk })

/-- The rows of all chunks, in chunk order. -/
def readRows [Build] (t : Table) : Except Fault (List (List AllTypeVariant)) := do
  let rows ← (List.range t.chunkCount.toNat).mapM fun id => do
    let chunk ← t.getChunk (UInt32.ofNat id)
    chunk.readRows
  return rows.flatten

theorem colCount_toNat (t : Table) : t.colCount.toNat = t.columnNames.length % 2 ^ 16 := by
  simp [colCount]

theorem chunkCount_toNat (t : Table) : t.chunkCount.toNat = t.chunks.length % 2 ^ 32 := by
  simp [chunkCount]

theorem rowCount_toNat (t : Table) :
    t.rowCount.toNat = (t.chunks.map fun chunk => chunk.size.toNat).sum % 2 ^ 64 := by
  have from_sum (chunks : List Chunk) (result : UInt64) :
      (chunks.foldl (fun result chunk => result + chunk.size.toUInt64) result).toNat =
        (result.toNat + (chunks.map fun chunk => chunk.size.toNat).sum) % 2 ^ 64 := by
    induction chunks generalizing result with
    | nil => simp
    | cons chunk chunks ih =>
      rw [List.foldl_cons, ih, UInt64.toNat_add, List.map_cons, List.sum_cons, Nat.mod_add_mod,
        UInt32.toNat_toUInt64, Nat.add_assoc]
  simpa [rowCount] using from_sum t.chunks 0

theorem columnType_eq_ok {t : Table} {id : Nat} {type : String} :
    t.columnType id = .ok type ↔ t.columnTypes[id]? = some type := by
  unfold columnType
  cases t.columnTypes[id]? <;> simp

theorem catchable_of_columnType {t : Table} {id : Nat} {fault : Fault}
    (missing : t.columnType id = .error fault) : fault.Catchable := by
  unfold columnType at missing
  split at missing
  · cases missing
  · cases missing
    simp [Fault.Catchable]

theorem getChunk_eq_ok {t : Table} {id : ChunkID} {chunk : Chunk} :
    t.getChunk id = .ok chunk ↔ t.chunks[id.toNat]? = some chunk := by
  unfold getChunk
  cases t.chunks[id.toNat]? <;> simp

theorem catchable_of_getChunk {t : Table} {id : ChunkID} {fault : Fault}
    (missing : t.getChunk id = .error fault) : fault.Catchable := by
  unfold getChunk at missing
  split at missing
  · cases missing
  · cases missing
    simp [Fault.Catchable]

/-- The lookup finds the first column of that name, among those that `col_count()` counts. -/
theorem columnIdByName_eq_ok {t : Table} {name : String} {id : Nat} :
    t.columnIdByName name = .ok id ↔ id < t.colCount.toNat ∧ t.columnNames[id]? = some name ∧
      ∀ j, j < id → t.columnNames[j]? ≠ some name := by
  unfold columnIdByName
  split
  · rename_i place found
    rw [List.find?_range_eq_some] at found
    constructor
    · intro same
      cases same
      simpa [and_comm, and_left_comm] using found
    · rintro ⟨inside, here, before⟩
      obtain ⟨here', inside', before'⟩ := found
      refine congrArg Except.ok (Nat.le_antisymm ?_ ?_)
      · by_contra below
        simpa [here] using before' id (by omega)
      · by_contra below
        exact before place (by omega) (by simpa using here')
  · rename_i none
    rw [List.find?_range_eq_none] at none
    refine iff_of_false (by simp) ?_
    rintro ⟨inside, here, _⟩
    simpa [here] using none id inside

theorem catchable_of_columnIdByName {t : Table} {name : String} {fault : Fault}
    (missing : t.columnIdByName name = .error fault) : fault.Catchable := by
  unfold columnIdByName at missing
  split at missing
  · cases missing
  · cases missing
    simp [Fault.Catchable]

end Table

/-- The calls that change a table. -/
inductive TableCall
  | addColumnDefinition (name type : String)
  | addColumn (name type : String)
  | append (values : List AllTypeVariant)
  | createNewChunk
  | compressChunk (id : ChunkID)

def TableCall.run [Build] : TableCall → Table → Outcome Fault Table
  | addColumnDefinition name type, t => t.addColumnDefinition name type
  | addColumn name type, t => t.addColumn name type
  | append values, t => t.append values
  | createNewChunk, t => t.createNewChunk
  | compressChunk id, t => t.compressChunk id

end Opossum

import Opossum.Storage.TableRuns

/-!
# Compression and the calls after it

Compressing a chunk and any other call on the table can change places: both orders end alike and
leave the same table.
-/

namespace Opossum
namespace Table
variable [Build] {id : ChunkID} {new : Chunk} {t u : Table}

/-- `compress_chunk` reads nothing but the chunk, the column types and the chunk size. -/
theorem compressedChunk_congr (sameChunk : u.chunks[id.toNat]? = t.chunks[id.toNat]?)
    (sameTypes : u.columnTypes = t.columnTypes) (sameSize : u.chunkSize = t.chunkSize) :
    u.compressedChunk id = t.compressedChunk id := by
  have sameColumn : u.compressColumn = t.compressColumn := by
    funext old new i
    rw [compressColumn, compressColumn, columnType, columnType, sameTypes]
  rw [compressedChunk, compressedChunk, getChunk, getChunk, sameChunk, hasInfiniteChunkSize,
    hasInfiniteChunkSize, sameSize, sameColumn]

/-- `u` is `t` after chunk `id` has been compressed to `new`. -/
structure CompressedAt (id : ChunkID) (new : Chunk) (t u : Table) : Prop where
  made : t.compressedChunk id = .ok new
  inside : id.toNat < t.chunks.length
  swapped : u = { t with chunks := t.chunks.set id.toNat new }

theorem CompressedAt.run (compressed : CompressedAt id new t u) : t.compressChunk id = .returned u :=
  compressChunk_eq_returned.mpr ⟨new, compressed.made, compressed.swapped⟩

/-- A call that neither looks at chunk `id` nor at the schema keeps two such tables related. -/
theorem CompressedAt.with_chunks (compressed : CompressedAt id new t u) (chunks : List Chunk)
    (same : chunks[id.toNat]? = t.chunks[id.toNat]?) :
    CompressedAt id new { t with chunks := chunks } { u with chunks := chunks.set id.toNat new } := by
  obtain ⟨made, inside, rfl⟩ := compressed
  refine ⟨(compressedChunk_congr (u := { t with chunks := chunks }) same rfl rfl).trans made, ?_, rfl⟩
  rw [List.getElem?_eq_getElem inside] at same
  exact (List.getElem?_eq_some_iff.mp same).1

theorem CompressedAt.createNewChunk (compressed : CompressedAt id new t u) :
    Outcome.EndsLike (CompressedAt id new) t.createNewChunk u.createNewChunk := by
  have sameNew : u.newChunk = t.newChunk := by
    rw [newChunk, newChunk, compressed.swapped]
  unfold Table.createNewChunk
  rw [sameNew]
  cases t.newChunk with
  | error fault => exact .stopped compressed
  | ok chunk =>
    have grown := compressed.with_chunks (t.chunks ++ [chunk])
      (List.getElem?_append_left compressed.inside)
    rw [List.set_append_left _ _ compressed.inside] at grown
    obtain ⟨_, _, rfl⟩ := compressed
    exact .returned grown

theorem length_createNewChunk {left : Table} (run : t.createNewChunk = .returned left) :
    left.chunks.length = t.chunks.length + 1 := by
  obtain ⟨types, _, rfl⟩ := createNewChunk_eq_returned.mp run
  simp

/-- A call on the last chunk, which is not the compressed one. -/
theorem CompressedAt.onBack (compressed : CompressedAt id new t u)
    (before : id.toNat + 1 < t.chunks.length) (call : Chunk → Outcome Fault Chunk) :
    Outcome.EndsLike (CompressedAt id new) (t.onBack call) (u.onBack call) := by
  obtain none | ⟨front, last, split⟩ := List.eq_nil_or_concat t.chunks
  · simp [none] at before
  rw [List.concat_eq_append] at split
  have inFront : id.toNat < front.length := by
    simp only [split, List.length_append, List.length_singleton] at before
    omega
  have swapped : u.chunks = front.set id.toNat new ++ [last] := by
    rw [compressed.swapped, split, List.set_append_left _ _ inFront]
  have grown (last' : Chunk) : CompressedAt id new { t with chunks := front ++ [last'] }
      { u with chunks := front.set id.toNat new ++ [last'] } := by
    rw [← List.set_append_left _ _ inFront]
    refine compressed.with_chunks _ ?_
    rw [split, List.getElem?_append_left inFront, List.getElem?_append_left inFront]
  unfold Table.onBack
  rw [swapped, split]
  simp only [List.getLast?_append, List.getLast?_singleton, Option.some_or, List.dropLast_concat]
  cases call last with
  | returned last' => exact .returned (grown last')
  | stopped fault last' => exact .stopped (grown last')

/-- The chunk keeps its size, so the last chunk is full in both tables or in none. -/
theorem CompressedAt.isLastChunkFull (compressed : CompressedAt id new t u) (regular : t.Regular) :
    u.isLastChunkFull = t.isLastChunkFull := by
  obtain ⟨made, inside, rfl⟩ := compressed
  obtain ⟨old, found, _, _, columns⟩ := regular.compressedChunk_eq_ok.mp made
  have sameSize := Chunk.size_eq_of_compressesTo columns
  have sizes : (t.chunks.set id.toNat new).map Chunk.size = t.chunks.map Chunk.size := by
    refine List.ext_getElem? fun k => ?_
    rw [List.map_set, sameSize]
    by_cases here : id.toNat = k
    · subst here
      rw [List.getElem?_set_self (by simpa using inside), List.getElem?_map, found, Option.map_some]
    · rw [List.getElem?_set_ne here]
  rw [Bool.eq_iff_iff, isLastChunkFull_iff, isLastChunkFull_iff, sizes]

/-- If the compressed chunk is the last one, then the last chunk is full. -/
theorem CompressedAt.before_last (compressed : CompressedAt id new t u) (regular : t.Regular)
    (room : t.isLastChunkFull = false) : id.toNat + 1 < t.chunks.length := by
  obtain ⟨made, inside, _⟩ := compressed
  obtain ⟨old, found, notInfinite, full, _⟩ := regular.compressedChunk_eq_ok.mp made
  by_contra last
  have atLast : t.chunks.getLast? = some old := by
    rw [List.getLast?_eq_getElem?, ← found]
    congr 1
    omega
  have isFull : t.isLastChunkFull = true := by
    rw [isLastChunkFull_iff, List.getLast?_map, atLast, Option.map_some, full]
    exact ⟨notInfinite, rfl⟩
  rw [room] at isFull
  cases isFull

theorem CompressedAt.append (compressed : CompressedAt id new t u) (regular : t.Regular)
    (values : List AllTypeVariant) :
    Outcome.EndsLike (CompressedAt id new) (t.append values) (u.append values) := by
  unfold Table.append
  rw [compressed.isLastChunkFull regular]
  cases full : t.isLastChunkFull with
  | false => exact compressed.onBack (compressed.before_last regular full) _
  | true =>
    have opened := compressed.createNewChunk
    have grown (s : Table) (run : t.createNewChunk = .returned s) : id.toNat + 1 < s.chunks.length := by
      have inside := compressed.inside
      rw [length_createNewChunk run]
      omega
    generalize t.createNewChunk = o at opened grown
    generalize u.createNewChunk = o' at opened
    cases opened with
    | returned opened => exact opened.onBack (grown _ rfl) _
    | stopped opened => exact .stopped opened

theorem CompressedAt.compressChunk (compressed : CompressedAt id new t u) {other : ChunkID}
    (different : other ≠ id) :
    Outcome.EndsLike (CompressedAt id new) (t.compressChunk other) (u.compressChunk other) := by
  have apart : id.toNat ≠ other.toNat := fun same => different (UInt32.toNat_inj.mp same).symm
  have same : u.compressedChunk other = t.compressedChunk other := by
    rw [compressed.swapped]
    exact compressedChunk_congr (List.getElem?_set_ne apart) rfl rfl
  unfold Table.compressChunk
  rw [same]
  cases t.compressedChunk other with
  | error fault => exact .stopped compressed
  | ok chunk =>
    have swapped := compressed.with_chunks (t.chunks.set other.toNat chunk)
      (List.getElem?_set_ne apart.symm)
    rw [← List.set_comm _ _ apart] at swapped
    obtain ⟨_, _, rfl⟩ := compressed
    exact .returned swapped

end Table

namespace Schema
variable [Build] {schema : Schema} {t : Table}

/-- A table that has been reached by such calls is regular. -/
theorem regular_of_run (ordered : schema.Ordered) {calls : List TableCall}
    (rowCalls : ∀ call ∈ calls, schema.RowCall call) (few : (appended calls).length < 2 ^ 32)
    {made : Table} (created : schema.create = .returned made) (run : Run Table.Serves made calls t) :
    t.Regular := by
  obtain ⟨made', created', holds⟩ := schema.create_holds
  cases created.symm.trans created'
  obtain ⟨t', run', holdsT⟩ := exists_run ordered rowCalls few holds
  obtain rfl := Run.functional Table.Serves.functional run run'
  exact holdsT.regular ordered (by rwa [length_rows_foldl rowCalls])

/-- Compressing chunk `id` and any other such call commute: in both orders the call ends alike, and
the tables they leave are the same. -/
theorem compressChunk_commutes (ordered : schema.Ordered) {calls : List TableCall}
    (rowCalls : ∀ call ∈ calls, schema.RowCall call) (few : (appended calls).length < 2 ^ 32)
    {made : Table} (created : schema.create = .returned made) (run : Run Table.Serves made calls t)
    {id : ChunkID} {compressed : Table} (success : t.compressChunk id = .returned compressed)
    {op : TableCall} (rowCall : schema.RowCall op) (independent : op ≠ .compressChunk id) :
    Outcome.EndsLike (fun left left' => left.compressChunk id = .returned left')
      (op.run t) (op.run compressed) := by
  have regular := regular_of_run ordered rowCalls few created run
  obtain ⟨new, chunkMade, swapped⟩ := Table.compressChunk_eq_returned.mp success
  obtain ⟨old, found, _⟩ := regular.compressedChunk_eq_ok.mp chunkMade
  have both : Table.CompressedAt id new t compressed :=
    ⟨chunkMade, (List.getElem?_eq_some_iff.mp found).1, swapped⟩
  refine Outcome.EndsLike.imp (R := Table.CompressedAt id new) ?_ fun _ _ related => related.run
  cases op with
  | append values => exact both.append regular values
  | createNewChunk => exact both.createNewChunk
  | compressChunk other => exact both.compressChunk fun same => independent (same ▸ rfl)
  | addColumnDefinition name type => exact rowCall.elim
  | addColumn name type => exact rowCall.elim

omit [Build] in
/-- The next append opens a new chunk behind a compressed one as well. -/
theorem compressChunk_commutes_append :
    letI := strictBuild
    let t : Table := ⟨[true], ["a"], ["int"], [⟨[.value .int ⟨[(3 : Int32)]⟩]⟩], 1⟩
    ∃ compressed, t.compressChunk 0 = .returned compressed ∧
      Outcome.EndsLike (fun left left' => left.compressChunk 0 = .returned left')
        (t.append [⟨.int, (4 : Int32)⟩]) (compressed.append [⟨.int, (4 : Int32)⟩]) := by
  let _ := strictBuild
  intro t
  let schema : Schema := ⟨[("a", .int)], 1, by decide, by decide, by decide⟩
  have rowCall (n : Int32) : schema.RowCall (.append [⟨.int, n⟩]) := ⟨[⟨.int, n⟩], rfl⟩
  have run : Run Table.Serves (Table.started 1 [("a", .int)]) [.append [⟨.int, (3 : Int32)⟩]] t :=
    .single (Or.inl rfl)
  have ordered : schema.Ordered := by simp [schema, Ordered, types, ColumnType.ordered_iff]
  obtain ⟨compressed, success⟩ : ∃ compressed, t.compressChunk 0 = .returned compressed := ⟨_, rfl⟩
  have law := compressChunk_commutes ordered (by simpa using rowCall 3) (by decide) schema.create_eq run
    success (rowCall 4) (by simp)
  exact ⟨compressed, success, law⟩

end Schema

end Opossum
